import Mnemos.ByteRegister
import Mnemos.RdbRoundTrip

/-!
# Replaced and damaged snapshots

A snapshot is written beside the old one and renamed over it. The loader looks
at the checksum when it meets an end marker, wherever that is.
-/

open List

namespace Mnemos.Rdb

structure Outcomes where
  synced : Bool
  closed : Bool
  renamed : Bool
deriving DecidableEq,Repr

def FileWriter.payload (w : FileWriter) : Bytes :=
  (w.buffer++[0xFF])++leBytes 8 (crc64 w.crc (w.buffer++[0xFF])).toNat

/-- The last loop around `write`: the file, whether no write failed, and the results left. -/
def FileWriter.last (w : FileWriter) : Bytes×Bool×List WriteResult :=
  if w.failed then (w.file,false,w.schedule) else writeLoop w.schedule w.payload w.file

/-- Actual `finish` with all the calls it makes: what it returns and what the path then holds.
Neither the result of `fsync` nor that of `close` is looked at. -/
def FileWriter.finishWith (w : FileWriter) (outcomes : Outcomes) (previous : Option Bytes) :
    Bool×Option Bytes :=
  if w.last.2.1 && outcomes.renamed then (true,some w.last.1) else (false,previous)

theorem FileWriter.finishWith_eq (w : FileWriter) (outcomes : Outcomes) (previous : Option Bytes) :
    w.finishWith outcomes previous=
      ((w.finish outcomes.renamed).isSome,(w.finish outcomes.renamed).or previous) := by
  rw [FileWriter.finish,FileWriter.finishWith,FileWriter.last,FileWriter.payload]
  dsimp only
  cases w.failed with
  | true => rfl
  | false =>
    simp only [Bool.false_eq_true,if_false]
    split <;> rfl

section Results

theorem writeLoop_used (schedule : List WriteResult) (left file : Bytes) :
    ∃ used,schedule=used++(writeLoop schedule left file).2.2 ∧
      ((writeLoop schedule left file).2.1=true ↔ .failed∉used) := by
  fun_induction writeLoop schedule left file with
  | case1 schedule file => exact ⟨[],rfl,by simp⟩
  | case2 left file => exact ⟨[],rfl,by simp⟩
  | case3 schedule left file hleft ih =>
    obtain ⟨used,hused,hok⟩ := ih
    exact ⟨.interrupted::used,by rw [cons_append,← hused],by rw [hok]; simp⟩
  | case4 schedule left file hleft => exact ⟨[.failed],rfl,by simp⟩
  | case5 n schedule left file hleft ih =>
    obtain ⟨used,hused,hok⟩ := ih
    exact ⟨.wrote n::used,by rw [cons_append,← hused],by rw [hok]; simp⟩

/-- The writer has used the first results, and failed exactly when one of them is a failure. -/
def FileWriter.Follows (w : FileWriter) (schedule : List WriteResult) : Prop :=
  ∃ used,schedule=used++w.schedule ∧ (w.failed=false ↔ .failed∉used)

theorem FileWriter.Follows.append {w : FileWriter} {schedule : List WriteResult}
    (h : w.Follows schedule) (frame : Bytes) : (w.append frame).Follows schedule := by
  obtain ⟨used,hused,hfailed⟩ := h
  rw [FileWriter.append]
  dsimp only
  split
  · rw [FileWriter.flush]
    split
    · exact ⟨used,hused,hfailed⟩
    · rename_i hopen
      simp only [Bool.or_eq_true,not_or,Bool.not_eq_true] at hopen
      obtain ⟨more,hmore,hok⟩ := writeLoop_used w.schedule (w.buffer++frame) w.file
      refine ⟨used++more,?_,?_⟩
      · dsimp only
        rw [append_assoc,← hmore,hused]
      · dsimp only
        rw [Bool.not_eq_false',hok,mem_append,not_or]
        exact ⟨fun hmore => ⟨hfailed.mp hopen.1,hmore⟩,fun hall => hall.2⟩
  · exact ⟨used,hused,hfailed⟩

theorem FileWriter.Follows.last {w : FileWriter} {schedule : List WriteResult}
    (h : w.Follows schedule) :
    ∃ used,schedule=used++w.last.2.2 ∧ (w.last.2.1=true ↔ .failed∉used) := by
  obtain ⟨used,hused,hfailed⟩ := h
  rw [FileWriter.last]
  cases hw : w.failed with
  | true =>
    rw [if_pos rfl]
    refine ⟨used,hused,?_⟩
    rw [← hfailed,hw]
    simp
  | false =>
    rw [if_neg (by decide)]
    obtain ⟨more,hmore,hok⟩ := writeLoop_used w.schedule w.payload w.file
    refine ⟨used++more,by rw [append_assoc,← hmore,hused],?_⟩
    rw [hok,mem_append,not_or]
    exact ⟨fun hmore => ⟨hfailed.mp hw,hmore⟩,fun hall => hall.2⟩

end Results

section Saves

variable [FloatText]

def save (schedule : List WriteResult) (calls : List FileCall) (outcomes : Outcomes)
    (previous : Option Bytes) : Bool×Option Bytes :=
  ((FileWriter.create schedule).run calls).finishWith outcomes previous

def writeResults (schedule : List WriteResult) (calls : List FileCall) : List WriteResult :=
  schedule.take (schedule.length-((FileWriter.create schedule).run calls).last.2.2.length)

def stream (calls : List FileCall) : Bytes :=
  (FileWriter.create []).buffer++calls.flatMap FileCall.frame

/-- A save is all or nothing; `closing` says whether a failing `close` counts as a failure. -/
structure AllOrNothing (closing : Bool) (schedule : List WriteResult) (calls : List FileCall)
    (outcomes : Outcomes) (previous : Option Bytes) : Prop where
  /-- True is returned only when everything succeeded and the path holds the file. -/
  all : (save schedule calls outcomes previous).1=true →
    .failed∉writeResults schedule calls ∧ outcomes.synced=true ∧ outcomes.renamed=true ∧
      (save schedule calls outcomes previous).2=some (sealed (stream calls))
  nothing : (.failed∈writeResults schedule calls ∨ outcomes.synced=false ∨
      closing=true ∧ outcomes.closed=false ∨ outcomes.renamed=false) →
    save schedule calls outcomes previous=(false,previous)

theorem last_iff (schedule : List WriteResult) (calls : List FileCall) :
    ((FileWriter.create schedule).run calls).last.2.1=true ↔
      .failed∉writeResults schedule calls := by
  have hstart : (FileWriter.create schedule).Follows schedule :=
    ⟨[],rfl,by simp [FileWriter.create]⟩
  have hfollows : ((FileWriter.create schedule).run calls).Follows schedule :=
    List.foldlRecOn (motive := fun w : FileWriter => w.Follows schedule) calls _ hstart
      fun w hw call _ => hw.append call.frame
  obtain ⟨used,hused,hok⟩ := hfollows.last
  have htake : writeResults schedule calls=used := by
    have hlen := congrArg List.length hused
    rw [length_append] at hlen
    rw [writeResults,hlen,Nat.add_sub_cancel]
    nth_rewrite 1 [hused]
    exact take_left
  rw [htake,hok]

theorem save_eq {schedule : List WriteResult} {calls : List FileCall} {outcomes : Outcomes}
    (previous : Option Bytes) (hwrites : .failed∉writeResults schedule calls)
    (hrenamed : outcomes.renamed=true) :
    save schedule calls outcomes previous=(true,some (sealed (stream calls))) := by
  have hlast := (last_iff schedule calls).mpr hwrites
  have hholds : ((FileWriter.create schedule).run calls).Holds (stream calls) :=
    FileWriter.Holds.run calls (w := FileWriter.create schedule) fun _ => ⟨rfl,rfl⟩
  rw [save,FileWriter.finishWith_eq]
  cases hfinish : ((FileWriter.create schedule).run calls).finish outcomes.renamed with
  | some file =>
    rw [hholds.finish hfinish]
    rfl
  | none =>
    have heq := FileWriter.finishWith_eq ((FileWriter.create schedule).run calls) outcomes previous
    rw [hfinish,FileWriter.finishWith,hlast,hrenamed] at heq
    cases heq

theorem save_refused {schedule : List WriteResult} {calls : List FileCall} {outcomes : Outcomes}
    (previous : Option Bytes)
    (h : .failed∈writeResults schedule calls ∨ outcomes.renamed=false) :
    save schedule calls outcomes previous=(false,previous) := by
  have hlast := last_iff schedule calls
  rw [save,FileWriter.finishWith,if_neg]
  rw [Bool.and_eq_true,hlast]
  rintro ⟨hwrites,hrenamed⟩
  obtain hfailed | hkept := h
  · exact hwrites hfailed
  · rw [hrenamed] at hkept
    cases hkept

/-- **Replacement**: a save is all or nothing exactly when `fsync` (and `close`, if it counts)
does not fail behind successful writes and in front of a successful rename. -/
theorem allOrNothing_iff (closing : Bool) (schedule : List WriteResult) (calls : List FileCall)
    (outcomes : Outcomes) (previous : Option Bytes) :
    AllOrNothing closing schedule calls outcomes previous ↔
      (.failed∉writeResults schedule calls → outcomes.renamed=true →
        outcomes.synced=true ∧ (closing=true → outcomes.closed=true)) := by
  constructor
  · intro h hwrites hrenamed
    have hsave := save_eq previous hwrites hrenamed
    refine ⟨(h.all (by rw [hsave])).2.1,fun hclosing => ?_⟩
    by_contra hclosed
    have hrefused := h.nothing (.inr (.inr (.inl ⟨hclosing,by simpa using hclosed⟩)))
    rw [hsave] at hrefused
    cases hrefused
  · intro h
    by_cases hgood : .failed∉writeResults schedule calls ∧ outcomes.renamed=true
    · obtain ⟨hwrites,hrenamed⟩ := hgood
      obtain ⟨hsynced,hclosed⟩ := h hwrites hrenamed
      have hsave := save_eq previous hwrites hrenamed
      refine ⟨fun _ => ⟨hwrites,hsynced,hrenamed,by rw [hsave]⟩,fun hfailure => ?_⟩
      obtain hfailed | hnot | ⟨hclosing,hnot⟩ | hnot := hfailure
      · exact absurd hfailed hwrites
      · rw [hsynced] at hnot
        cases hnot
      · rw [hclosed hclosing] at hnot
        cases hnot
      · rw [hrenamed] at hnot
        cases hnot
    · have hbad : .failed∈writeResults schedule calls ∨ outcomes.renamed=false := by
        by_contra hneither
        rw [not_or,Bool.not_eq_false] at hneither
        exact hgood hneither
      have hrefused := save_refused previous hbad
      exact ⟨fun htrue => (by rw [hrefused] at htrue; cases htrue),fun _ => hrefused⟩

end Saves

section Reference

attribute [local instance] DoubleText.reference

/-- An empty database over an older file, with an `fsync` that fails. -/
theorem fsync_ignored :
    ¬AllOrNothing false [] [] ⟨false,true,true⟩ (some [1]) := by
  intro h
  have hsynced := (h.all (by decide +kernel)).2.1
  cases hsynced

end Reference

/-! ## The checksum as a shift register -/

open ShiftRegister List

def polynomial : BitVec 64 := kCrcPolyReflected.toBitVec

def symbol (b : UInt8) : BitVec 64 := b.toUInt64.toBitVec

theorem polynomial_msb : polynomial.msb=true := by decide

theorem crcBit_toBitVec (s : UInt64) : (crcBit s).toBitVec=shift polynomial s.toBitVec := by
  have hlow : s&&&1=if s.toBitVec.getLsbD 0 then 1 else 0 := by
    apply UInt64.toBitVec_inj.mp
    rw [UInt64.toBitVec_and]
    have h := BitVec.and_one_eq_setWidth_ofBool_getLsbD (x := s.toBitVec)
    cases hbit : s.toBitVec.getLsbD 0 with
    | false => rw [hbit] at h; exact h
    | true => rw [hbit] at h; exact h
  have hmask : (kCrcPolyReflected&&&~~~((s&&&1)-1)).toBitVec=
      if s.toBitVec.getLsbD 0 then polynomial else 0#64 := by
    rw [hlow]
    cases s.toBitVec.getLsbD 0 <;> decide
  rw [crcBit,UInt64.toBitVec_xor,hmask,UInt64.toBitVec_shiftRight]
  rfl

theorem crcEntry_toBitVec (i : UInt64) :
    (crcEntry i).toBitVec=(shift polynomial)^[8] i.toBitVec := by
  rw [crcEntry]
  simp only [crcBit_toBitVec,Function.iterate_succ_apply,Function.iterate_zero_apply]

theorem crcStep_toBitVec (s : UInt64) (b : UInt8) :
    (crcEntry ((s^^^b.toUInt64)&&&0xFF)^^^(s >>> 8)).toBitVec=
      feed polynomial 8 s.toBitVec (symbol b) := by
  have hgone : symbol b >>> 8=0#64 := byteSymbol_ushiftRight b
  have hshift : (s >>> 8).toBitVec=(s.toBitVec^^^symbol b) >>> 8 := by
    rw [BitVec.ushiftRight_xor_distrib,hgone,BitVec.xor_zero,UInt64.toBitVec_shiftRight]
    rfl
  rw [feed,iterate_shift_eq,UInt64.toBitVec_xor,crcEntry_toBitVec,hshift]
  rfl

theorem crc64_toBitVec (s : UInt64) (bytes : Bytes) :
    (crc64 s bytes).toBitVec=feedAll polynomial 8 s.toBitVec (bytes.map symbol) := by
  induction bytes generalizing s with
  | nil => rfl
  | cons b bytes ih =>
    rw [map_cons]
    change (crc64 (crcEntry ((s^^^b.toUInt64)&&&0xFF)^^^(s >>> 8)) bytes).toBitVec=
      feedAll polynomial 8 (feed polynomial 8 s.toBitVec (symbol b)) (bytes.map symbol)
    rw [ih,crcStep_toBitVec]

/-- A message and eight bytes behind it: the register is cleared exactly when they are the
message's checksum. -/
theorem crc64_eq_zero_iff (message : Bytes) {tail : Bytes} (hlen : tail.length=8) :
    crc64 0 (message++tail)=0 ↔ leValue tail=(crc64 0 message).toNat := by
  have hpacked := @packed_bytes 64 tail (by omega)
  have hclear : feedAll polynomial 8 (crc64 0 message).toBitVec (tail.map symbol)=0#64 ↔ _ :=
    feedAll_eq_zero_iff polynomial_msb (byteSymbols_lt tail) (by rw [length_map,hlen]) _
  rw [← crc64_toBitVec] at hclear
  have hsplit : crc64 0 (message++tail)=crc64 (crc64 0 message) tail := foldl_append
  rw [hsplit,← UInt64.toBitVec_inj,← hpacked]
  refine hclear.trans ?_
  rw [← BitVec.toNat_inj]
  rfl

theorem eq_of_crc64_eq {s : UInt64} {before u v after : Bytes} (hlen : u.length=v.length)
    (hburst : u.length ≤ 8) (h : crc64 s (before++u++after)=crc64 s (before++v++after)) :
    u=v := by
  have hfeed := congrArg UInt64.toBitVec h
  rw [crc64_toBitVec,crc64_toBitVec] at hfeed
  exact eq_of_feedAll_eq polynomial_msb hlen (by omega) _ before after hfeed

theorem crc64_of_payloadFooterOk {payload : Bytes} (h : payloadFooterOk payload=true) :
    crc64 0 payload=0 := by
  rw [payloadFooterOk] at h
  split at h
  · cases h
  rename_i hlen
  dsimp only at h
  split at h
  · cases h
  have hfooter : payload.length-10+2=payload.length-8 := by omega
  rw [hfooter,beq_iff_eq] at h
  have htail : (payload.drop (payload.length-8)).length=8 := by
    rw [length_drop]
    omega
  have hzero := (crc64_eq_zero_iff (payload.take (payload.length-8)) htail).mpr h
  rwa [take_append_drop] at hzero

/-- **Footers**: a payload that differs from an accepted one of its length, and only inside
eight consecutive bytes, is refused. -/
theorem payloadFooterOk_burst {p q : Bytes} (hp : payloadFooterOk p=true)
    (hlen : q.length=p.length) (hne : q≠p) (i : ℕ) (hwindow : q.take i=p.take i)
    (hwindow' : q.drop (i+8)=p.drop (i+8)) : payloadFooterOk q=false := by
  apply Bool.eq_false_of_not_eq_true
  intro hq
  have hparts := window_parts i 8
  have hcrc : crc64 0 q=crc64 0 p := by
    rw [crc64_of_payloadFooterOk hp,crc64_of_payloadFooterOk hq]
  rw [hparts q,hparts p,hwindow,hwindow'] at hcrc
  have hsame := eq_of_crc64_eq (by simp only [length_take,length_drop,hlen])
    (length_take_le 8 _) hcrc
  apply hne
  rw [hparts q,hparts p,hwindow,hwindow',hsame]

theorem payloadFooterOk_letter :
    payloadFooterOk [0,1,97,15,0,164,122,138,151,33,154,128,76]=true ∧
      payloadFooterOk [0,1,98,15,0,164,122,138,151,33,154,128,76]=false := by
  have hletter : payloadFooterOk [0,1,97,15,0,164,122,138,151,33,154,128,76]=true := by
    decide +kernel
  exact ⟨hletter,payloadFooterOk_burst hletter rfl (by decide) 2 rfl rfl⟩

/-! ## Damaged snapshots -/

open Reader List

section Readers

theorem readLenOrTag_tails : readLenOrTag.Tails := by
  refine readByte_tails.bind fun first => .ite (.pure _) (.ite (.pure _) (.ite ?_ (.ite ?_ ?_)))
  · exact readByte_tails.map _
  · exact (readRaw_tails 4).map _
  · exact .ite ((readRaw_tails 8).map _) .reject

theorem readLen_tails : readLen.Tails :=
  readLenOrTag_tails.bind fun _ => (Tails.check _).bind fun _ => .pure _

theorem readLzf_tails : readLzf.Tails := by
  refine readLen_tails.bind fun clen => readLen_tails.bind fun ulen => (readRaw_tails clen).bind
    fun raw => (Tails.allocate _ _).bind fun _ => (Tails.check _).bind fun _ => ?_
  rw [expand]
  cases Lzf.lzfDecompress raw ulen with
  | error e => exact .reject
  | ok out => exact (Tails.check _).bind fun _ => .pure out

theorem readString_tails : readString.Tails := by
  refine readLenOrTag_tails.bind fun tag => .ite (readRaw_tails _) ?_
  split
  · exact readByte_tails.map _
  · exact (readRaw_tails 2).map _
  · exact (readRaw_tails 4).map _
  · exact readLzf_tails
  · exact .reject

theorem loadBinaryDouble_tails : loadBinaryDouble.Tails := (readRaw_tails 8).map _

theorem loadTextDouble_tails [FloatText] : loadTextDouble.Tails :=
  readByte_tails.bind fun _ => .ite (.pure _) (.ite (.pure _) (.ite (.pure _)
    ((readRaw_tails _).bind fun _ => Tails.require _)))

theorem readListpack_tails : readListpack.Tails :=
  readString_tails.bind fun _ => Tails.require _

theorem loadListBody_tails : loadListBody.Tails := by
  refine readLen_tails.bind fun nodes => (Tails.check _).bind fun _ =>
    (Tails.allocate _ _).bind fun _ => (Tails.times (fun _ => ?_) nodes []).bind fun _ =>
      (Tails.require _).map _
  exact readLen_tails.bind fun _ => .ite (readString_tails.map _)
    ((Tails.check _).bind fun _ => readListpack_tails.bind fun _ =>
      (Tails.check _).bind fun _ => .pure _)

theorem loadZSetBody_tails [FloatText] {readScore : Reader Double} (h : readScore.Tails) (draws : Draws) :
    (loadZSetBody readScore draws).Tails :=
  readLen_tails.bind fun len => (Tails.check _).bind fun _ =>
    (Tails.times (fun _ => readString_tails.bind fun _ => h.map _) len _).bind fun _ =>
      (Tails.check _).bind fun _ => .pure _

theorem loadObjectBody_tails [FloatText] (type : UInt8) (draws : Draws) :
    (loadObjectBody type draws).Tails := by
  refine .ite ?_ (.ite ?_ (.ite ?_ (.ite ?_ (.ite ?_ (.ite ?_ (.ite ?_ (.ite ?_ (.ite ?_
    (.ite ?_ .reject)))))))))
  · exact (readString_tails.map Value.makeString).map _
  · exact loadListBody_tails.map _
  · exact (readString_tails.bind fun _ => (Tails.require _).bind fun _ =>
      (Tails.check _).bind fun _ => .pure _).map _
  · exact (readListpack_tails.bind fun _ => (Tails.check _).bind fun _ => .pure _).map _
  · exact (readLen_tails.bind fun len => (Tails.check _).bind fun _ =>
      (Tails.times (fun _ => readString_tails.map _) len _).bind fun _ =>
        (Tails.check _).bind fun _ => .pure _).map _
  · exact (readListpack_tails.bind fun _ => (Tails.check _).bind fun _ =>
      (Tails.require _).map _).map _
  · exact (readLen_tails.bind fun len => (Tails.check _).bind fun _ =>
      (Tails.times (fun _ => readString_tails.bind fun _ => readString_tails.map _) len _).bind
        fun _ => (Tails.check _).bind fun _ => .pure _).map _
  · exact readListpack_tails.bind fun _ => (Tails.check _).bind fun _ => (Tails.require _).map _
  · exact loadZSetBody_tails loadTextDouble_tails draws
  · exact loadZSetBody_tails loadBinaryDouble_tails draws

end Readers

theorem orFail_ok {A : Type} {p : Reader A} {error bytes rest : Bytes} {a : A}
    (h : orFail p error bytes=.ok (a,rest)) : p bytes=.ok (a,rest) := by
  rw [orFail] at h
  split at h
  · rename_i r hr
    rw [hr,Except.ok.inj h]
  · cases h
  · cases h

theorem orFail_error {A : Type} {p : Reader A} {error bytes : Bytes} {outcome : LoadOutcome}
    (h : orFail p error bytes=.error outcome) : outcome≠.loaded := by
  rw [orFail] at h
  split at h
  · cases h
  · cases h
    exact LoadOutcome.noConfusion
  · cases h
    exact LoadOutcome.noConfusion

/-- A step of the loop leaves the end of its bytes, or stops without success. -/
def Leaves {B : Type} (bytes : Bytes) : Except LoadOutcome (B×Bytes) → Prop
  | .ok r => r.2 <:+ bytes
  | .error outcome => outcome≠.loaded

theorem leaves_bind {A B : Type} {p : Reader A} (htails : p.Tails) {error bytes bytes' : Bytes}
    (hbytes : bytes <:+ bytes') {f : A×Bytes → Except LoadOutcome (B×Bytes)}
    (hf : ∀ a rest,rest <:+ bytes' → Leaves bytes' (f (a,rest))) :
    Leaves bytes' (orFail p error bytes >>= f) := by
  cases hread : orFail p error bytes with
  | error outcome => exact orFail_error hread
  | ok r => exact hf r.1 r.2 ((htails bytes r.1 r.2 (orFail_ok hread)).trans hbytes)

section Walk

variable [FloatText]

theorem loadOpcode_leaves (opcode : UInt8) (s : LoadState) (bytes : Bytes) :
    Leaves bytes (loadOpcode opcode s bytes) := by
  have hall : bytes <:+ bytes := suffix_rfl
  unfold loadOpcode
  split
  · exact leaves_bind readLen_tails hall fun _ _ h => h
  split
  · exact leaves_bind (readLen_tails.bind fun _ => readLen_tails.map _) hall fun _ _ h => h
  split
  · exact leaves_bind (readString_tails.bind fun _ => readString_tails.map _) hall fun _ _ h => h
  split
  · exact leaves_bind (readRaw_tails 8) hall fun _ _ h => h
  split
  · exact leaves_bind (readRaw_tails 4) hall fun _ _ h => h
  split
  · exact leaves_bind readLen_tails hall fun _ _ h => h
  split
  · exact leaves_bind readByte_tails hall fun _ _ h => h
  split
  · exact LoadOutcome.noConfusion
  · exact leaves_bind readString_tails hall fun _ _ hkey =>
      leaves_bind (loadObjectBody_tails _ _) hkey fun _ _ h => h

/-- The loader stands in front of these bytes, where it expects an opcode. -/
inductive Arrives (contents : Bytes) (draws : Draws) : LoadState → Bytes → Prop where
  | start : Arrives contents draws ⟨0,-1,[],draws⟩ (contents.drop 9)
  | next {s s' : LoadState} {opcode : UInt8} {bytes rest : Bytes}
    (h : Arrives contents draws s (opcode::bytes)) (hopcode : opcode≠0xFF)
    (hload : loadOpcode opcode s bytes=.ok (s',rest)) : Arrives contents draws s' rest

inductive Stops (contents : Bytes) (s : LoadState) : Bytes → LoadOutcome → Prop where
  | truncated : Stops contents s [] (.failed (ascii "truncated file"))
  | marker (tail : Bytes) : Stops contents s (0xFF::tail) (checkTrailer contents tail)
  | broken {opcode : UInt8} {bytes : Bytes} {outcome : LoadOutcome} (hopcode : opcode≠0xFF)
    (hload : loadOpcode opcode s bytes=.error outcome) :
    Stops contents s (opcode::bytes) outcome

/-- In front of these bytes the loader does not return false: an end marker with eight bytes
behind it that are all zero, or that are the checksum of everything up to the marker while the
file goes on; or an opcode on which the standard library throws. -/
inductive Escapes (contents : Bytes) (s : LoadState) : Bytes → Prop where
  | unchecked {tail : Bytes} (hlen : 8 ≤ tail.length) (hzero : leValue (tail.take 8)=0) :
    Escapes contents s (0xFF::tail)
  | early {tail : Bytes} (hlen : 8 < tail.length)
    (hcrc : leValue (tail.take 8)=(crc64 0 (contents.take (contents.length-tail.length))).toNat) :
    Escapes contents s (0xFF::tail)
  | raised {opcode : UInt8} {bytes : Bytes} (hopcode : opcode≠0xFF)
    (hload : loadOpcode opcode s bytes=.error .raised) : Escapes contents s (opcode::bytes)

variable {contents : Bytes} {draws : Draws} {s : LoadState} {rest : Bytes}

theorem Arrives.suffix (h : Arrives contents draws s rest) : rest <:+ contents := by
  induction h with
  | start => exact drop_suffix 9 contents
  | @next s s' opcode bytes rest _ _ hload ih =>
    have hleaves := loadOpcode_leaves opcode s bytes
    rw [hload] at hleaves
    exact hleaves.trans ((suffix_cons opcode bytes).trans ih)

theorem Arrives.loadLoop (h : Arrives contents draws s rest) :
    ∃ fuel,rest.length ≤ fuel ∧
      loadLoop contents contents.length ⟨0,-1,[],draws⟩ (contents.drop 9)=
        loadLoop contents fuel s rest := by
  induction h with
  | start => exact ⟨contents.length,by rw [length_drop]; omega,rfl⟩
  | @next s s' opcode bytes rest _ hopcode hload ih =>
    obtain ⟨fuel,hfuel,hloop⟩ := ih
    rw [length_cons] at hfuel
    obtain ⟨fuel,rfl⟩ : ∃ n,fuel=n+1 := ⟨fuel-1,by omega⟩
    have hleaves := loadOpcode_leaves opcode s bytes
    rw [hload] at hleaves
    refine ⟨fuel,hleaves.length_le.trans (by omega),?_⟩
    rw [hloop,Rdb.loadLoop,if_neg hopcode,hload]

theorem Arrives.stops {fuel : ℕ} (h : Arrives contents draws s rest) (hfuel : rest.length ≤ fuel) :
    ∃ s' rest',Arrives contents draws s' rest' ∧
      Stops contents s' rest' (Rdb.loadLoop contents fuel s rest).1 := by
  induction fuel generalizing s rest with
  | zero =>
    obtain rfl : rest=[] := eq_nil_of_length_eq_zero (by omega)
    exact ⟨s,[],h,.truncated⟩
  | succ fuel ih =>
    cases rest with
    | nil => exact ⟨s,[],h,.truncated⟩
    | cons opcode bytes =>
      rw [length_cons] at hfuel
      rw [Rdb.loadLoop]
      by_cases hopcode : opcode=0xFF
      · subst hopcode
        rw [if_pos rfl]
        exact ⟨s,_,h,.marker bytes⟩
      · rw [if_neg hopcode]
        have hleaves := loadOpcode_leaves opcode s bytes
        cases hload : loadOpcode opcode s bytes with
        | error outcome => exact ⟨s,_,h,.broken hopcode hload⟩
        | ok r =>
          rw [hload] at hleaves
          exact ih (h.next hopcode hload) (hleaves.length_le.trans (by omega))

omit [FloatText] in
theorem checkTrailer_cases (contents tail : Bytes) :
    (∃ error,checkTrailer contents tail=.failed error) ∨
      8 ≤ tail.length ∧ checkTrailer contents tail=.loaded ∧
        (leValue (tail.take 8)=0 ∨
          leValue (tail.take 8)=(crc64 0 (contents.take (contents.length-tail.length))).toNat) := by
  rw [checkTrailer]
  dsimp only
  split
  · exact .inl ⟨_,rfl⟩
  rename_i hlen
  split
  · exact .inl ⟨_,rfl⟩
  · rename_i hmatch
    refine .inr ⟨by omega,rfl,?_⟩
    simp only [Bool.and_eq_true,decide_eq_true_eq,not_and,not_not] at hmatch
    exact or_iff_not_imp_left.mpr hmatch

theorem Escapes.not_failed (h : Escapes contents s rest) {fuel : ℕ} (hfuel : rest.length ≤ fuel)
    (error : Bytes) : (Rdb.loadLoop contents fuel s rest).1≠.failed error := by
  have hmarker : ∀ tail : Bytes,8 ≤ tail.length → (leValue (tail.take 8)=0 ∨
      leValue (tail.take 8)=(crc64 0 (contents.take (contents.length-tail.length))).toNat) →
      checkTrailer contents tail=.loaded := by
    intro tail hlen hmatch
    rw [checkTrailer]
    dsimp only
    rw [if_neg (by omega),if_neg]
    simp only [Bool.and_eq_true,decide_eq_true_eq,not_and,not_not]
    exact or_iff_not_imp_left.mp hmatch
  obtain ⟨n,rfl⟩ : ∃ n,fuel=n+1 := by
    cases h <;> exact ⟨fuel-1,by rw [length_cons] at hfuel; omega⟩
  cases h with
  | unchecked hlen hzero =>
    rw [Rdb.loadLoop,if_pos rfl,hmarker _ hlen (.inl hzero)]
    exact LoadOutcome.noConfusion
  | early hlen hcrc =>
    rw [Rdb.loadLoop,if_pos rfl,hmarker _ hlen.le (.inr hcrc)]
    exact LoadOutcome.noConfusion
  | raised hopcode hload =>
    rw [Rdb.loadLoop,if_neg hopcode,hload]
    exact LoadOutcome.noConfusion

end Walk

section Damage

theorem crc64_sealed (bytes : Bytes) : crc64 0 (sealed bytes)=0 := by
  have hlt : (crc64 0 (bytes++[0xFF])).toNat < 256^8 := UInt64.toNat_lt _
  have htail := leBytes_length 8 (crc64 0 (bytes++[0xFF])).toNat
  have hzero := (crc64_eq_zero_iff (bytes++[0xFF]) htail).mpr (leValue_leBytes_of_lt hlt)
  rwa [append_assoc] at hzero

theorem crc64_set_ne {file : Bytes} {i : ℕ} {b : UInt8} (hi : i < file.length)
    (hb : file[i]?≠some b) : crc64 0 (file.set i b)≠crc64 0 file := by
  intro h
  have hfile : file=file.take i++[file[i]]++file.drop (i+1) := by
    rw [append_assoc,singleton_append,getElem_cons_drop,take_append_drop]
  have hset : file.set i b=file.take i++[b]++file.drop (i+1) := by
    rw [set_eq_take_append_cons_drop,if_pos hi,append_assoc,singleton_append]
  rw [hset] at h
  nth_rewrite 3 [hfile] at h
  have hsame := eq_of_crc64_eq (u := [b]) (v := [file[i]]) rfl (by simp) h
  apply hb
  rw [getElem?_eq_getElem hi,(List.cons.inj hsame).1]

variable [FloatText]

theorem finish_eq_sealed {schedule : List WriteResult} {calls : List FileCall} {renamed : Bool}
    {file : Bytes} (hfinish : ((FileWriter.create schedule).run calls).finish renamed=some file) :
    file=sealed (stream calls) :=
  FileWriter.Holds.finish (FileWriter.Holds.run calls (w := FileWriter.create schedule)
    fun _ => ⟨rfl,rfl⟩) hfinish

theorem loadFile_eq {contents : Bytes} (hheader : contents.take 9=header) (draws : Draws) :
    loadFile contents draws=
      loadLoop contents contents.length ⟨0,-1,[],draws⟩ (contents.drop 9) := by
  have hlen : 9 ≤ contents.length := by
    have h := congrArg List.length hheader
    rw [length_take,show header.length=9 from rfl] at h
    omega
  have hsignature : contents.take 5=ascii "REDIS" := by
    have h : (contents.take 9).take 5=contents.take 5 := by rw [take_take]; rfl
    rw [← h,hheader]
    rfl
  have hversion : (contents.drop 5).take 4=ascii "0015" := by
    have h : (contents.take 9).drop 5=(contents.drop 5).take 4 := by rw [drop_take]
    rw [← h,hheader]
    rfl
  rw [loadFile]
  dsimp only
  rw [if_neg (by simp [hsignature,Nat.not_lt.mpr hlen]),hversion,if_neg (by decide)]

/-- **Damage**: one changed byte behind the version makes `loadFile` return false exactly when
the loader does not come to a place where it escapes. -/
theorem loadFile_damaged_iff {schedule : List WriteResult} {calls : List FileCall} {renamed : Bool}
    {file : Bytes} (hfinish : ((FileWriter.create schedule).run calls).finish renamed=some file)
    {i : ℕ} (hlow : 9 ≤ i) (hi : i < file.length) {b : UInt8} (hb : file[i]?≠some b)
    (draws : Draws) :
    (∃ error,(loadFile (file.set i b) draws).1=.failed error) ↔
      ∀ s rest,Arrives (file.set i b) draws s rest → ¬Escapes (file.set i b) s rest := by
  have hfile := finish_eq_sealed hfinish
  have hheader : (file.set i b).take 9=header := by
    rw [take_set_of_le hlow,hfile,sealed,stream]
    rfl
  rw [loadFile_eq hheader]
  constructor
  · rintro ⟨error,hfailed⟩ s rest harrives hescapes
    obtain ⟨fuel,hfuel,hloop⟩ := harrives.loadLoop
    rw [hloop] at hfailed
    exact hescapes.not_failed hfuel error hfailed
  · intro hnone
    have hstart : Arrives (file.set i b) draws ⟨0,-1,[],draws⟩ ((file.set i b).drop 9) := .start
    have hshort : ((file.set i b).drop 9).length ≤ (file.set i b).length := by
      rw [length_drop]
      omega
    obtain ⟨s,rest,harrives,hstops⟩ := hstart.stops hshort
    have hsafe := hnone s rest harrives
    obtain ⟨outcome,houtcome⟩ : ∃ outcome,outcome=(loadLoop (file.set i b) (file.set i b).length
      ⟨0,-1,[],draws⟩ ((file.set i b).drop 9)).1 := ⟨_,rfl⟩
    rw [← houtcome] at hstops ⊢
    cases hstops with
    | truncated => exact ⟨_,rfl⟩
    | broken hopcode hload =>
      rename_i opcode bytes
      cases outcome with
      | failed error => exact ⟨error,rfl⟩
      | raised => exact absurd (.raised hopcode hload) hsafe
      | loaded =>
        have hleaves := loadOpcode_leaves opcode s bytes
        rw [hload] at hleaves
        exact absurd rfl hleaves
    | marker tail =>
      obtain hfailed | ⟨hlen,-,hzero | hcrc⟩ := checkTrailer_cases (file.set i b) tail
      · exact hfailed
      · exact absurd (.unchecked hlen hzero) hsafe
      · by_cases hearly : 8 < tail.length
        · exact absurd (.early hearly hcrc) hsafe
        · -- the writer's own marker: the whole file would clear the register once more
          have hlast : tail.length=8 := by omega
          have htail : tail <:+ file.set i b := (suffix_cons _ tail).trans harrives.suffix
          obtain ⟨front,hfront⟩ := htail
          have hsplit : (file.set i b).take ((file.set i b).length-tail.length)++tail=
              file.set i b := by
            rw [← hfront,length_append,Nat.add_sub_cancel,take_left]
          have hclear := (crc64_eq_zero_iff ((file.set i b).take
            ((file.set i b).length-tail.length)) hlast).mpr (by
              rwa [take_of_length_le (le_of_eq hlast)] at hcrc)
          rw [hsplit] at hclear
          refine absurd ?_ (crc64_set_ne hi hb)
          rw [hclear,hfile,crc64_sealed]

end Damage

section Reference

attribute [local instance] DoubleText.reference

theorem loadFile_damaged_marker :
    (∃ error,(loadFile ((sealed (stream [])).set 40 0) (Stream'.const 0)).1=.failed error) ∧
      ∀ s rest,Arrives ((sealed (stream [])).set 40 0) (Stream'.const 0) s rest →
        ¬Escapes ((sealed (stream [])).set 40 0) s rest := by
  have hfinish : ((FileWriter.create []).run []).finish true=some (sealed (stream [])) := by
    decide +kernel
  have hiff := loadFile_damaged_iff hfinish (i := 40) (b := 0) (by decide) (by decide +kernel)
    (by decide +kernel) (Stream'.const 0)
  exact (and_iff_left_of_imp hiff.mp).mpr ⟨ascii "bad key",by decide +kernel⟩

def markerKey : Bytes := [0xFF,0,0,0,0,0,0,0,0]

/-- Its entry's type turned into the opcode of an access frequency, which takes one byte: the
length of the key. The key is then met as the end of the file. -/
theorem loadFile_damaged_loaded :
    ((FileWriter.create []).run [.writeEntry markerKey (.makeString [97]) (-1)]).finish true=
        some (sealed (stream [.writeEntry markerKey (.makeString [97]) (-1)])) ∧
      crc64 0 (stream [.writeEntry markerKey (.makeString [97]) (-1)]++[0xFF])≠0 ∧
      (sealed (stream [.writeEntry markerKey (.makeString [97]) (-1)]))[40]?=some 0 ∧
      (loadFile ((sealed (stream [.writeEntry markerKey (.makeString [97]) (-1)])).set 40 0xF9)
        (Stream'.const 0)).1=.loaded := by
  decide +kernel

end Reference

end Mnemos.Rdb
