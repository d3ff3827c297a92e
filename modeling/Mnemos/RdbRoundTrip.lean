import Mnemos.Rdb

/-!
# Snapshots read back

A dumped value is restored with the same contents. A finished file holds the
bytes of all calls whatever the results of `write` were, so loading it hands
over the entries in the order they were written.
-/

namespace Mnemos

/-! ## Values that operations build -/

inductive ListValue.Reachable : ListValue → Prop
  | empty : Reachable .empty
  | pushFront {l : ListValue} (h : Reachable l) {value : Bytes} (hsize : value.length < 2^32) :
      Reachable (l.pushFront value)
  | pushBack {l : ListValue} (h : Reachable l) {value : Bytes} (hsize : value.length < 2^32) :
      Reachable (l.pushBack value)
  | popFront {l : ListValue} (h : Reachable l) : Reachable l.popFront.2
  | popBack {l : ListValue} (h : Reachable l) : Reachable l.popBack.2
  | set {l : ListValue} (h : Reachable l) (index : ℤ) {value : Bytes}
      (hsize : value.length < 2^32) : Reachable (l.set index value).2
  | removeValue {l : ListValue} (h : Reachable l) (value : Bytes) (count : ℤ) :
      Reachable (l.removeValue value count).2
  | trim {l : ListValue} (h : Reachable l) (start stop : ℤ) : Reachable (l.trim start stop)

theorem ListValue.Reachable.ok {l : ListValue} (h : l.Reachable) : l.Ok := by
  induction h with
  | empty => exact ListValue.empty_ok
  | pushFront _ hsize ih => exact (ih.pushFront hsize).1
  | pushBack _ hsize ih => exact (ih.pushBack hsize).1
  | popFront _ ih => exact ih.popFront.1
  | popBack _ ih => exact ih.popBack.1
  | set _ index hsize ih => exact (ih.set hsize index).1
  | removeValue _ value count ih => exact ih.removeValue value count
  | trim _ start stop ih => exact (ih.trim start stop).1

inductive HashValue.Reachable : HashValue → Prop
  | empty : Reachable .empty
  | set {h : HashValue} (hr : Reachable h) (field : Bytes) {value : Bytes}
      (hsize : value.length < 2^32) : Reachable (h.set field value).2
  | erase {h : HashValue} (hr : Reachable h) (field : Bytes) : Reachable (h.erase field).2
  | convertToHashTable {h : HashValue} (hr : Reachable h) : Reachable h.convertToHashTable
  | find {table : Dict Bytes} (hr : Reachable (.hashTable table)) (field : Bytes) :
      Reachable (.hashTable (table.find field).2)
  | copy {h : HashValue} (hr : Reachable h) : Reachable h.copy

theorem HashValue.Reachable.ok {h : HashValue} (hr : h.Reachable) : h.Ok := by
  induction hr with
  | empty => exact HashValue.empty_ok
  | set _ field hsize ih => exact (ih.set fun _ _ => hsize).1
  | erase _ field ih => exact (ih.erase field).1
  | @convertToHashTable h _ ih =>
    cases h with
    | listPack lp => exact trivial
    | hashTable table => exact trivial
  | find _ field _ => exact trivial
  | copy _ ih => exact (HashValue.setAll_empty ih.nodupKeys).1

inductive SetValue.Reachable : SetValue → Prop
  | empty : Reachable .empty
  | add {s : SetValue} (h : Reachable s) (member : Bytes) : Reachable (s.add member).2
  | erase {s : SetValue} (h : Reachable s) (member : Bytes) : Reachable (s.erase member).2
  | convertToListpack {s : SetValue} (h : Reachable s) : Reachable s.convertToListpack
  | convertToHashTable {s : SetValue} (h : Reachable s) : Reachable s.convertToHashTable
  | find {table : Dict Bool} (h : Reachable (.hashTable table)) (member : Bytes) :
      Reachable (.hashTable (table.find member).2)
  | copy {s : SetValue} (h : Reachable s) : Reachable s.copy

theorem SetValue.Reachable.ok {s : SetValue} (h : s.Reachable) : s.Ok := by
  induction h with
  | empty => exact SetValue.empty_ok
  | add _ member ih => exact (ih.add member).1
  | erase _ member ih => exact (ih.erase member).1
  | @convertToListpack s _ ih =>
    cases s with
    | intSet ints =>
      exact ⟨_,SetValue.packInts_holds ih,SetValue.Ok.nodup (s := .intSet ints) ih⟩
    | listPack lp => exact ih
    | hashTable table => exact ih
  | @convertToHashTable s _ ih =>
    cases s with
    | intSet ints => exact trivial
    | listPack lp => exact trivial
    | hashTable table => exact trivial
  | find _ member _ => exact trivial
  | @copy s _ ih => exact (SetValue.empty_ok.addAll s.members).1

section Text

variable [FloatText]

/-- Sorted sets built by their operations; the commands refuse scores that are not numbers. -/
inductive ZSetValue.Reachable : ZSetValue → Prop
  | empty : Reachable .empty
  | add {z : ZSetValue} (h : Reachable z) (member : Bytes) {score : Double}
      (hnumber : score.isNaN=false) (draws : Draws) : Reachable (z.add member score draws).2.1
  | erase {z : ZSetValue} (h : Reachable z) (member : Bytes) : Reachable (z.erase member).2
  | convertToSkipList {z : ZSetValue} (h : Reachable z) (draws : Draws) :
      Reachable (z.convertToSkipList draws).1
  | find {list : SkipList ScoredMember} {scores : Dict Double}
      (h : Reachable (.skipList list scores)) (member : Bytes) :
      Reachable (.skipList list (scores.find member).2)
  | copy {z : ZSetValue} (h : Reachable z) (draws : Draws) : Reachable (z.copy draws).1

theorem ZSetValue.Reachable.ok (exact : FloatText.Exact) {z : ZSetValue} (h : z.Reachable) :
    z.Ok := by
  induction h with
  | empty => exact ZSetValue.empty_ok.1
  | add _ member hnumber draws ih => exact (ih.add exact hnumber member draws).1
  | erase _ member ih => exact (ih.erase member).1
  | @convertToSkipList z _ draws ih =>
    cases z with
    | listPack lp =>
      obtain ⟨ps,hholds,hlisting⟩ := ih
      exact (ZSetValue.convertToSkipList_ok hholds hlisting draws).1
    | skipList list scores => exact ih
  | find _ member ih =>
    obtain ⟨xs,hholds,hlisting,hscores⟩ := ih
    exact ⟨xs,hholds,hlisting,fun m => by rw [Dict.lookup_find,hscores]⟩
  | copy _ draws ih => exact (ih.copy exact draws).1

/-- Values built by the operations of strings and collections. -/
inductive Value.Reachable : Value → Prop
  | makeString (s : Bytes) : Reachable (.makeString s)
  | makeRawString (s : Bytes) : Reachable (.makeRawString s)
  | makeInt {n : ℤ} (hfits : FitsSigned 64 n) : Reachable (.makeInt n)
  | appendString {v : Value} (h : Reachable v) (htype : v.type=.string) (suffix : Bytes) :
      Reachable (v.appendString suffix)
  | mutateString {v : Value} (h : Reachable v) (htype : v.type=.string) (change : Bytes → Bytes) :
      Reachable (v.mutateString change)
  | list {l : ListValue} (h : l.Reachable) (lastAccess : ℤ) : Reachable ⟨.list l,lastAccess⟩
  | hash {h : HashValue} (hr : h.Reachable) (lastAccess : ℤ) : Reachable ⟨.hash h,lastAccess⟩
  | set {s : SetValue} (h : s.Reachable) (lastAccess : ℤ) : Reachable ⟨.set s,lastAccess⟩
  | zset {z : ZSetValue} (h : z.Reachable) (lastAccess : ℤ) : Reachable ⟨.zset z,lastAccess⟩
  | touch {v : Value} (h : Reachable v) (now : ℤ) : Reachable (v.touch now)
  | copy {v : Value} (h : Reachable v) (draws : Draws) : Reachable (v.copy draws).1

theorem Value.Reachable.ok (exact : FloatText.Exact) {v : Value} (h : v.Reachable) : Rdb.Ok v := by
  induction h with
  | makeString s =>
    rw [Value.makeString]
    split
    · exact trivial
    · split <;> exact trivial
  | makeRawString s => exact trivial
  | makeInt _ => exact trivial
  | appendString _ _ suffix _ => exact trivial
  | mutateString _ _ change _ => exact trivial
  | list h _ => exact h.ok
  | hash hr _ => exact hr.ok
  | set h _ => exact h.ok
  | zset h _ => exact h.ok exact
  | touch _ now ih => exact ih
  | @copy v _ draws ih =>
    obtain ⟨data,lastAccess⟩ := v
    cases data with
    | hash h => exact (HashValue.setAll_empty (HashValue.Ok.nodupKeys ih)).1
    | set s => exact (SetValue.empty_ok.addAll s.members).1
    | zset z => exact (ZSetValue.Ok.copy exact ih draws).1
    | _ => exact ih

end Text

end Mnemos

/-! ## Snapshots read back -/

namespace Mnemos.Rdb

open List

theorem crc64_append (crc : UInt64) (a b : Bytes) :
    crc64 crc (a++b)=crc64 (crc64 crc a) b := foldl_append

section Writer

variable (schedule : List WriteResult)

theorem writeLoop_spec (left file : Bytes) (h : (writeLoop schedule left file).2.1=true) :
    (writeLoop schedule left file).1=file++left := by
  fun_induction writeLoop schedule left file with
  | case1 schedule file => exact (append_nil file).symm
  | case2 left file => rfl
  | case3 schedule left file hleft ih => exact ih h
  | case4 schedule left file hleft => cases h
  | case5 n schedule left file hleft ih =>
    rw [ih h,append_assoc,take_append_drop]

/-- A writer that did not fail has these bytes in its file and buffer, and the checksum of those
in its file. -/
def FileWriter.Holds (w : FileWriter) (bytes : Bytes) : Prop :=
  w.failed=false → w.file++w.buffer=bytes ∧ w.crc=crc64 0 w.file

variable {w : FileWriter} {bytes : Bytes}

theorem FileWriter.Holds.flush (h : w.Holds bytes) :
    w.flush.Holds bytes := by
  rw [FileWriter.flush]
  split
  · exact h
  · rename_i hopen
    simp only [Bool.or_eq_true,not_or,Bool.not_eq_true] at hopen
    obtain ⟨hfile,hcrc⟩ := h hopen.1
    intro hok
    have hwritten := writeLoop_spec w.schedule w.buffer w.file (by simpa using hok)
    dsimp only
    exact ⟨by rw [hwritten,append_nil,hfile],by rw [hwritten,hcrc,crc64_append]⟩

theorem FileWriter.Holds.append (h : w.Holds bytes) (frame : Bytes) :
    (w.append frame).Holds (bytes++frame) := by
  have hbuffer : ({ w with buffer := w.buffer++frame } : FileWriter).Holds (bytes++frame) := by
    intro hok
    obtain ⟨hfile,hcrc⟩ := h hok
    exact ⟨by rw [← hfile,append_assoc],hcrc⟩
  rw [FileWriter.append]
  dsimp only
  split
  · exact hbuffer.flush
  · exact hbuffer

theorem FileWriter.Holds.run [FloatText] (calls : List FileCall) (h : w.Holds bytes) :
    (w.run calls).Holds (bytes++calls.flatMap FileCall.frame) := by
  induction calls generalizing w bytes with
  | nil => rwa [flatMap_nil,append_nil]
  | cons call calls ih =>
    rw [flatMap_cons,← append_assoc]
    exact ih (h.append call.frame)

def sealed (bytes : Bytes) : Bytes := bytes++(0xFF::leBytes 8 (crc64 0 (bytes++[0xFF])).toNat)

theorem sealed_spec (bytes : Bytes) :
    ∃ trailer,sealed bytes=bytes++(0xFF::trailer) ∧ checkTrailer (sealed bytes) trailer=.loaded := by
  refine ⟨_,rfl,?_⟩
  have hlt : (crc64 0 (bytes++[0xFF])).toNat < 256^8 := UInt64.toNat_lt _
  have hcovered : (sealed bytes).length-8=(bytes++[0xFF]).length := by
    simp only [sealed,length_append,length_cons,length_nil,leBytes_length]
    omega
  have htake : (sealed bytes).take (bytes++[0xFF]).length=bytes++[0xFF] := by
    rw [sealed,append_cons bytes 0xFF (leBytes 8 _)]
    exact take_left
  rw [checkTrailer]
  dsimp only
  rw [leBytes_length,hcovered,htake,if_neg (by decide),
    take_of_length_le (by rw [leBytes_length]),leValue_leBytes_of_lt hlt]
  simp

theorem FileWriter.Holds.finish {bytes file : Bytes} {renamed : Bool} (h : w.Holds bytes)
    (hfinish : w.finish renamed=some file) :
    file=sealed bytes := by
  rw [FileWriter.finish] at hfinish
  dsimp only at hfinish
  split at hfinish
  · cases hfinish
  · rename_i hopen
    obtain ⟨hfile,hcrc⟩ := h (by simpa using hopen)
    split at hfinish
    · rename_i hok
      rw [Bool.and_eq_true] at hok
      rw [Option.some.injEq] at hfinish
      rw [← hfinish,writeLoop_spec _ _ _ hok.1,hcrc,← crc64_append,← hfile,sealed]
      simp only [append_assoc,singleton_append]
    · cases hfinish

theorem writeLoop_ok (left file : Bytes)
    (h : .failed∉schedule) : (writeLoop schedule left file).2.1=true ∧
      .failed∉(writeLoop schedule left file).2.2 := by
  fun_induction writeLoop schedule left file with
  | case1 schedule file => exact ⟨rfl,h⟩
  | case2 left file => exact ⟨rfl,h⟩
  | case3 schedule left file hleft ih => exact ih fun hmem => h (mem_cons_of_mem _ hmem)
  | case4 schedule left file hleft => exact absurd mem_cons_self h
  | case5 n schedule left file hleft ih => exact ih fun hmem => h (mem_cons_of_mem _ hmem)

/-- A writer that did not fail and whose later calls of `write` will not. -/
def FileWriter.Sound (w : FileWriter) : Prop := w.failed=false ∧ .failed∉w.schedule

theorem FileWriter.Sound.append (h : w.Sound) (frame : Bytes) :
    (w.append frame).Sound := by
  rw [FileWriter.append]
  dsimp only
  split
  · rw [FileWriter.flush]
    split
    · exact h
    · obtain ⟨hok,hleft⟩ := writeLoop_ok w.schedule (w.buffer++frame) w.file h.2
      exact ⟨by dsimp only; rw [hok]; rfl,hleft⟩
  · exact h

theorem FileWriter.finish_create [FloatText] (h : .failed∉schedule)
    (calls : List FileCall) : ∃ file,((create schedule).run calls).finish true=some file := by
  have hsound : ((create schedule).run calls).Sound :=
    List.foldlRecOn calls _ (show (create schedule).Sound from ⟨rfl,h⟩)
      fun w hw call _ => hw.append call.frame
  rw [FileWriter.finish]
  dsimp only
  rw [if_neg (by rw [hsound.1]; decide),(writeLoop_ok _ _ _ hsound.2).1]
  exact ⟨_,rfl⟩

end Writer

section Loader

theorem objectType_lt (v : Value) : objectType v < 0xF0 := by
  have hlt : ([0,2,4,5,11,16,17,18,20] : List UInt8).all (· < 0xF0)=true := rfl
  refine of_decide_eq_true (all_eq_true.mp hlt _ ?_)
  obtain ⟨data,lastAccess⟩ := v
  cases data with
  | set s => cases s <;> simp [objectType,SetValue.encoding]
  | hash h => cases h <;> simp [objectType,HashValue.encoding]
  | zset z => cases z <;> simp [objectType,ZSetValue.encoding]
  | _ => simp [objectType]

theorem orFail_reads {A : Type} {p : Reader A} {bytes : Bytes} {a : A} (h : Reads p bytes a)
    (error rest : Bytes) : orFail p error (bytes++rest)=.ok (a,rest) := by
  rw [orFail,h rest]

theorem readPair_reads {A : Type} {p : Reader A} {s t : Bytes} {a b : A} (hs : Reads p s a)
    (ht : Reads p t b) : Reads (readPair p) (s++t) (a,b) :=
  hs.bind (ht.map fun b => (a,b))

variable [FloatText]

/-- The loop takes exactly these bytes and goes from one state to the other, whatever follows. -/
def Loads (contents : Bytes) (s : LoadState) (frame : Bytes) (s' : LoadState) : Prop :=
  ∃ k ≤ frame.length,∀ fuel rest,
    loadLoop contents (k+fuel) s (frame++rest)=loadLoop contents fuel s' rest

variable (contents : Bytes) (s : LoadState)

theorem Loads.refl : Loads contents s [] s :=
  ⟨0,le_refl 0,fun fuel rest => by rw [Nat.zero_add,nil_append]⟩

theorem Loads.trans {contents frame frame' : Bytes} {s s' s'' : LoadState}
    (h : Loads contents s frame s') (h' : Loads contents s' frame' s'') :
    Loads contents s (frame++frame') s'' := by
  obtain ⟨k,hk,hstep⟩ := h
  obtain ⟨k',hk',hstep'⟩ := h'
  refine ⟨k+k',by rw [length_append]; omega,fun fuel rest => ?_⟩
  rw [Nat.add_assoc,append_assoc,hstep,hstep']

theorem Loads.step {contents frame : Bytes} {s s' : LoadState} {opcode : UInt8}
    (hopcode : opcode≠0xFF) (h : ∀ rest,loadOpcode opcode s (frame++rest)=.ok (s',rest)) :
    Loads contents s (opcode::frame) s' := by
  refine ⟨1,by rw [length_cons]; omega,fun fuel rest => ?_⟩
  rw [Nat.add_comm,cons_append,loadLoop,if_neg hopcode,h rest]

theorem loads_auxFrame (key value : Bytes)
    (hkey : key.length ≤ stringMaxSize) (hvalue : value.length ≤ stringMaxSize) :
    Loads contents s (auxFrame key value) s := by
  refine Loads.step (by decide) fun rest => ?_
  have hread := orFail_reads
    (readPair_reads (readString_saveString hkey) (readString_saveString hvalue))
    (ascii "bad auxiliary field") rest
  rw [loadOpcode,if_neg (by decide),if_neg (by decide),if_pos rfl,hread]
  rfl

theorem loads_selectFrame {index : ℤ} {size expires : ℕ}
    (hindex : FitsSigned 32 index) (hsize : size < 2^64) (hexpires : expires < 2^64) :
    Loads contents s (selectFrame index size expires) { s with db := index } := by
  have hselect : Loads contents s (0xFE::saveLen (toUnsigned 64 index)) { s with db := index } := by
    refine Loads.step (by decide) fun rest => ?_
    have hread := orFail_reads (readLen_saveLen (toUnsigned_lt 64 index)) (ascii "bad SELECTDB") rest
    rw [loadOpcode,if_pos rfl,hread]
    change Except.ok ({ s with db := toSigned 32 (toUnsigned 64 index%2^32) },rest)=_
    rw [toUnsigned_mod (by decide),toSigned_toUnsigned (by decide) hindex]
  have hresize : Loads contents { s with db := index } (0xFB::(saveLen size++saveLen expires))
      { s with db := index } := by
    refine Loads.step (by decide) fun rest => ?_
    have hread := orFail_reads (readPair_reads (readLen_saveLen hsize) (readLen_saveLen hexpires))
      (ascii "bad RESIZEDB") rest
    rw [loadOpcode,if_neg (by decide),if_pos rfl,hread]
    rfl
  exact hselect.trans hresize

theorem loads_expiry {expireAt : ℤ} (hfits : FitsSigned 64 expireAt) :
    Loads contents s (0xFC::leBytes 8 (toUnsigned 64 expireAt)) { s with expireAt := expireAt } := by
  refine Loads.step (by decide) fun rest => ?_
  have hread := orFail_reads (readRaw_reads (leBytes_length 8 (toUnsigned 64 expireAt)))
    (ascii "bad expiry") rest
  rw [loadOpcode,if_neg (by decide),if_neg (by decide),if_neg (by decide),if_pos rfl,hread]
  change Except.ok ({ s with
    expireAt := toSigned 64 (leValue (leBytes 8 (toUnsigned 64 expireAt))) },rest)=_
  rw [toSigned_leValue_leBytes 8 (by decide) hfits]

theorem loads_object {key : Bytes} {value : Value}
    (hkey : key.length ≤ stringMaxSize) (hvalue : ∀ draws,Reloads value draws) :
    ∃ (v : Value) (draws : Draws),value.SameContents v ∧
      Loads contents s (objectType value::(saveString key++saveObjectBody value))
        { s with
          expireAt := -1
          emitted := s.emitted++[⟨s.db,key,v,s.expireAt⟩]
          draws := draws } := by
  obtain ⟨v,draws,hsame,hbody⟩ := hvalue s.draws
  refine ⟨v,draws,hsame,Loads.step ?_ fun rest => ?_⟩
  · intro h
    have hlt := objectType_lt value
    rw [h] at hlt
    exact absurd hlt (by decide)
  · have hne : ∀ opcode : UInt8,0xF0 ≤ opcode → objectType value≠opcode := by
      rintro opcode hop rfl
      exact absurd (objectType_lt value) (UInt8.not_lt.mpr hop)
    have hreadKey := orFail_reads (readString_saveString hkey) (ascii "bad key")
      (saveObjectBody value++rest)
    have hreadBody := orFail_reads hbody (ascii "bad value for key '"++key++ascii "'") rest
    rw [loadOpcode,if_neg (hne _ (by decide)),if_neg (hne _ (by decide)),
      if_neg (hne _ (by decide)),if_neg (hne _ (by decide)),if_neg (hne _ (by decide)),
      if_neg (hne _ (by decide)),if_neg (hne _ (by decide)),
      if_neg (UInt8.not_le.mpr (objectType_lt value)),append_assoc,hreadKey]
    dsimp only [bind,Except.bind]
    rw [hreadBody]
    rfl

/-- Values that are saved: built by operations, not empty and of a size the format holds. -/
structure Savable (v : Value) : Prop where
  reachable : v.Reachable
  some : 0 < v.elementCount
  fits : Fits v

theorem Savable.reloads (exact : FloatText.Exact) {v : Value} (h : Savable v) (draws : Draws) :
    Reloads v draws := Rdb.reloads exact (h.reachable.ok exact) h.some h.fits draws

/-- Arguments that the types of the calls allow, with savable values and deadlines -1 or later. -/
def FileCall.Valid : FileCall → Prop
  | selectDb index size expires => FitsSigned 32 index ∧ size < 2^64 ∧ expires < 2^64
  | writeEntry key value expireAt => key.length ≤ stringMaxSize ∧ Savable value ∧
      FitsSigned 64 expireAt ∧ -1 ≤ expireAt

/-- The entries that calls write, each with the database selected before it. -/
def written : ℤ → List FileCall → List Emitted
  | _,[] => []
  | _,.selectDb index _ _::calls => written index calls
  | db,.writeEntry key value expireAt::calls => ⟨db,key,value,expireAt⟩::written db calls

/-- Entries for one database, key and deadline whose values have the same contents. -/
def Emitted.Same (a b : Emitted) : Prop :=
  a.db=b.db ∧ a.key=b.key ∧ a.expireAt=b.expireAt ∧ a.value.SameContents b.value

theorem loads_entryFrame {s : LoadState} (hs : s.expireAt=-1) {key : Bytes}
    {value : Value} {expireAt : ℤ} (hkey : key.length ≤ stringMaxSize)
    (hvalue : ∀ draws,Reloads value draws) (hfits : FitsSigned 64 expireAt) (hlow : -1 ≤ expireAt) :
    ∃ (v : Value) (draws : Draws),value.SameContents v ∧
      Loads contents s (entryFrame key value expireAt)
        { s with
          emitted := s.emitted++[⟨s.db,key,v,expireAt⟩]
          draws := draws } := by
  obtain ⟨db,before,emitted,draws⟩ := s
  cases hs
  have hexpiry : Loads contents ⟨db,-1,emitted,draws⟩
      (if 0 ≤ expireAt then 0xFC::leBytes 8 (toUnsigned 64 expireAt) else [])
      ⟨db,expireAt,emitted,draws⟩ := by
    split
    · exact loads_expiry contents _ hfits
    · have hnone : expireAt=-1 := by omega
      rw [hnone]
      exact Loads.refl contents _
  obtain ⟨v,draws',hsame,hload⟩ := loads_object contents ⟨db,expireAt,emitted,draws⟩ hkey hvalue
  exact ⟨v,draws',hsame,hexpiry.trans hload⟩

theorem loads_calls (exact : FloatText.Exact) (contents : Bytes) (calls : List FileCall)
    (hvalid : ∀ call∈calls,call.Valid) (s : LoadState) (hs : s.expireAt=-1) :
    ∃ s' new,Loads contents s (calls.flatMap FileCall.frame) s' ∧ s'.emitted=s.emitted++new ∧
      Forall₂ Emitted.Same (written s.db calls) new := by
  induction calls generalizing s with
  | nil => exact ⟨s,[],Loads.refl contents s,(append_nil _).symm,.nil⟩
  | cons call calls ih =>
    have hcall := hvalid call mem_cons_self
    have hrest := fun c hc => hvalid c (mem_cons_of_mem call hc)
    cases call with
    | selectDb index size expires =>
      obtain ⟨hindex,hsize,hexpires⟩ := hcall
      obtain ⟨s',new,hload,hemitted,hsame⟩ := ih hrest { s with db := index } hs
      exact ⟨s',new,(loads_selectFrame contents s hindex hsize hexpires).trans hload,hemitted,hsame⟩
    | writeEntry key value expireAt =>
      obtain ⟨hkey,hvalue,hfits,hlow⟩ := hcall
      obtain ⟨v,draws,hv,hentry⟩ :=
        loads_entryFrame contents hs hkey (hvalue.reloads exact) hfits hlow
      obtain ⟨s',new,hload,hemitted,hsame⟩ := ih hrest
        { s with emitted := s.emitted++[⟨s.db,key,v,expireAt⟩],draws := draws } hs
      refine ⟨s',⟨s.db,key,v,expireAt⟩::new,hentry.trans hload,?_,.cons ⟨rfl,rfl,rfl,hv⟩ hsame⟩
      rw [hemitted,append_assoc,singleton_append]

theorem loadFile_frames {frames : Bytes} {s : LoadState} (draws : Draws)
    (h : Loads (sealed (header++frames)) ⟨0,-1,[],draws⟩ frames s) :
    loadFile (sealed (header++frames)) draws=(.loaded,s) := by
  obtain ⟨k,hk,hload⟩ := h
  obtain ⟨trailer,hsealed,hcheck⟩ := sealed_spec (header++frames)
  have hshape : sealed (header++frames)=header++(frames++(0xFF::trailer)) := by
    rw [hsealed,append_assoc]
  have hlength : (sealed (header++frames)).length=k+((sealed (header++frames)).length-k-1+1) := by
    rw [hshape,length_append,length_append,length_cons]
    omega
  have htake : (sealed (header++frames)).take 5=ascii "REDIS" := by rw [hshape]; rfl
  have hversion : ((sealed (header++frames)).drop 5).take 4=ascii "0015" := by rw [hshape]; rfl
  have hdrop : (sealed (header++frames)).drop 9=frames++(0xFF::trailer) := by rw [hshape]; rfl
  have hnine : ¬(sealed (header++frames)).length < 9 := by
    rw [hshape,length_append,show header.length=9 from rfl]
    omega
  rw [loadFile]
  dsimp only
  rw [if_neg (by simp [hnine,htake]),hversion,if_neg (by decide),hdrop,hlength,hload,loadLoop,
    if_pos rfl,hcheck]

theorem loadFile_finish (exact : FloatText.Exact) (schedule : List WriteResult)
    (calls : List FileCall) (hvalid : ∀ call∈calls,call.Valid) {renamed : Bool} {file : Bytes}
    (hfinish : ((FileWriter.create schedule).run calls).finish renamed=some file) (draws : Draws) :
    (loadFile file draws).1=.loaded ∧
      Forall₂ Emitted.Same (written 0 calls) (loadFile file draws).2.emitted := by
  have hcreate : (FileWriter.create schedule).Holds (header++
      (auxFrame (ascii "redis-ver") (ascii "7.4.0")++auxFrame (ascii "redis-bits") (ascii "64"))) :=
    fun _ => ⟨rfl,rfl⟩
  have hfile := (hcreate.run calls).finish hfinish
  rw [append_assoc] at hfile
  have haux := (loads_auxFrame file ⟨0,-1,[],draws⟩ (ascii "redis-ver") (ascii "7.4.0")
    (by decide) (by decide)).trans
    (loads_auxFrame file ⟨0,-1,[],draws⟩ (ascii "redis-bits") (ascii "64") (by decide) (by decide))
  obtain ⟨s,new,hcalls,hemitted,hsame⟩ := loads_calls exact file calls hvalid ⟨0,-1,[],draws⟩ rfl
  rw [nil_append] at hemitted
  have hload := haux.trans hcalls
  rw [hfile] at hload ⊢
  rw [loadFile_frames draws hload]
  exact ⟨rfl,by rw [hemitted]; exact hsame⟩

theorem loadPayload_dumpPayload {v : Value} {draws : Draws} (h : Reloads v draws) :
    payloadFooterOk (dumpPayload v)=true ∧
      ∃ (v' : Value) (draws' : Draws),loadPayload (dumpPayload v) draws=.ok (v',draws') ∧
        v.SameContents v' := by
  obtain ⟨v',draws',hsame,hbody⟩ := h
  set body := objectType v::saveObjectBody v with hbodyDef
  set crc := (crc64 0 (body++leBytes 2 kRdbVersion)).toNat with hcrc
  have hdump : dumpPayload v=body++(leBytes 2 kRdbVersion++leBytes 8 crc) := by
    rw [← append_assoc]
    rfl
  have hlength : (dumpPayload v).length-10=body.length := by
    rw [hdump,length_append,length_append,leBytes_length,leBytes_length]
    omega
  have hlong : ¬(dumpPayload v).length < 11 := by
    rw [hdump,length_append,length_append,leBytes_length,leBytes_length,hbodyDef,
      length_cons]
    omega
  refine ⟨?_,v',draws',?_,hsame⟩
  · have hlt : crc < 256^8 := UInt64.toNat_lt _
    have hversion : ((dumpPayload v).drop body.length).take 2=leBytes 2 kRdbVersion := by
      rw [hdump,drop_left]
      rfl
    have hcovered : (dumpPayload v).take (body.length+2)=body++leBytes 2 kRdbVersion := by
      rw [hdump,← append_assoc]
      exact take_left' (by rw [length_append,leBytes_length])
    have hstored : (dumpPayload v).drop (body.length+2)=leBytes 8 crc := by
      rw [hdump,← append_assoc]
      exact drop_left' (by rw [length_append,leBytes_length])
    rw [payloadFooterOk,if_neg hlong]
    dsimp only
    rw [hlength,hversion,hcovered,hstored,if_neg (by decide),leValue_leBytes_of_lt hlt,beq_iff_eq]
  · have hread := ((readByte_reads (objectType v)).bind
      (f := fun type => loadObjectBody type draws) hbody) []
    rw [append_nil] at hread
    have htake : (dumpPayload v).take body.length=[objectType v]++saveObjectBody v := by
      rw [hdump]
      exact take_left
    rw [loadPayload,if_neg hlong]
    dsimp only
    rw [hlength,htake,hread]
    rfl

/-- Contents survive a dump and a snapshot: savable values are restored with their type and
contents, and a finished file is loaded as the sequence of entries that was written. -/
theorem round_trip (exact : FloatText.Exact) :
    (∀ (v : Value) (draws : Draws),Savable v →
      ∃ (v' : Value) (draws' : Draws),loadPayload (dumpPayload v) draws=.ok (v',draws') ∧
        v'.type=v.type ∧ v.SameContents v') ∧
    (∀ (schedule : List WriteResult) (calls : List FileCall) (renamed : Bool) (file : Bytes)
      (draws : Draws),(∀ call∈calls,call.Valid) →
      ((FileWriter.create schedule).run calls).finish renamed=some file →
      (loadFile file draws).1=.loaded ∧
        Forall₂ Emitted.Same (written 0 calls) (loadFile file draws).2.emitted) := by
  refine ⟨fun v draws hv => ?_,fun schedule calls renamed file draws hvalid hfinish =>
    loadFile_finish exact schedule calls hvalid hfinish draws⟩
  obtain ⟨-,v',draws',hload,hsame⟩ := loadPayload_dumpPayload (hv.reloads exact draws)
  exact ⟨v',draws',hload,hsame.type,hsame⟩

end Loader

section Reference

attribute [local instance] DoubleText.reference

def oneMember : Value :=
  .of (.zset (ZSetValue.empty.add (ascii "a") (DoubleText.ofInt 3) (Stream'.const 0)).2.1)

theorem oneMember_savable : Savable oneMember := by
  refine ⟨.zset (.add .empty (ascii "a") (by decide) (Stream'.const 0)) 0,by decide,?_⟩
  change Listpack.totalBytes _ < 2^32
  decide

theorem round_trip_oneMember :
    (∃ (v : Value) (draws : Draws),
      loadPayload (dumpPayload oneMember) (Stream'.const 0)=.ok (v,draws) ∧
        v.type=.zset ∧ oneMember.SameContents v) ∧
    ∃ file,((FileWriter.create [.interrupted,.wrote 5]).run
        [.selectDb 3 1 1,.writeEntry (ascii "k") oneMember 7]).finish true=some file ∧
      (loadFile file (Stream'.const 0)).1=.loaded ∧
      Forall₂ Emitted.Same [⟨3,ascii "k",oneMember,7⟩]
        (loadFile file (Stream'.const 0)).2.emitted := by
  have h := round_trip DoubleText.reference_exact
  refine ⟨h.1 oneMember (Stream'.const 0) oneMember_savable,?_⟩
  obtain ⟨file,hfile⟩ := FileWriter.finish_create [.interrupted,.wrote 5] (by decide)
    [.selectDb 3 1 1,.writeEntry (ascii "k") oneMember 7]
  refine ⟨file,hfile,h.2 _ _ true file (Stream'.const 0) ?_ hfile⟩
  intro call hcall
  rcases mem_cons.mp hcall with rfl | hcall
  · exact ⟨by decide,by decide,by decide⟩
  · rw [mem_singleton.mp hcall]
    exact ⟨by decide,oneMember_savable,by decide,by decide⟩

/-- An empty list can be built and dumped, but its payload is rejected. -/
theorem loadPayload_makeList : Value.makeList.Reachable ∧
    loadPayload (dumpPayload .makeList) (Stream'.const 0)=.error .rejected :=
  ⟨.list .empty 0,rfl⟩

end Reference

end Mnemos.Rdb
