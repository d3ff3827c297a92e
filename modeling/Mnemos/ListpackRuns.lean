import Mnemos.Collections
import Mnemos.Refinement

/-!
# Sequences of listpack operations

Every sequence of edits leaves the listpack that the same edits of a list of
texts describe, for each way of reading it, backwards included.
-/

namespace Mnemos.Listpack

open List

/-- The loop of `decodeBacklenBackwards` over the bytes down to the start of the buffer, the
nearest first: the value and the number of bytes read. None reads in front of the buffer. -/
def decodeGroups (value bytesRead : ℕ) : Bytes → Option (ℕ×ℕ)
  | [] => none
  | b::before =>
    let value := value+b.toNat%128*128^bytesRead
    if b.toNat < 128 then some (value,bytesRead+1)
    -- the source's shift would pass 28
    else if 4 ≤ bytesRead then some (0,0)
    else decodeGroups value (bytesRead+1) before

/-- Actual `decodeBacklenBackwards` on the buffer up to the last byte of the field. -/
def decodeBacklenBackwards (bytes : Bytes) : Option (ℕ×ℕ) := decodeGroups 0 0 bytes.reverse

/-- Where an entry is: its start, the size of its payload and of the length field behind it. -/
structure Span where
  start : ℕ
  payload : ℕ
  backlen : ℕ
deriving DecidableEq,Repr

def spansFrom : ℕ → Bytes → ℕ → List Span
  | 0,_,_ => []
  | fuel+1,rest,offset =>
    if atEntry rest then
      match decodePayload rest with
      | none => []
      | some (_,size) =>
        let width := (encodeBacklen size).length
        if rest.length < size+width then []
        else ⟨offset,size,width⟩::spansFrom fuel (rest.drop (size+width)) (offset+(size+width))
    else []

def spans (lp : Listpack) : List Span :=
  spansFrom lp.buffer.length (lp.buffer.drop headerSize) headerSize

/-- Stepping left from an offset until the header. None is a step that stays, that leaves the
entries, or that reads in front of the buffer. -/
def walkBack (buffer : Bytes) : ℕ → ℕ → Option (List Span)
  | 0,offset => if offset=headerSize then some [] else none
  | fuel+1,offset =>
    if offset=headerSize then some []
    else
      match decodeBacklenBackwards (buffer.take offset) with
      | none => none
      | some (value,width) =>
        if width=0 ∨ offset < headerSize+(value+width) then none
        else (walkBack buffer fuel (offset-(value+width))).map
          (⟨offset-(value+width),value,width⟩::·)

def backwards (lp : Listpack) : Option (List Span) :=
  walkBack lp.buffer lp.buffer.length (lp.buffer.length-1)

/-- The length field holds the bytes that the writer puts there for the payload. -/
def Spelled (buffer : Bytes) (span : Span) : Prop :=
  (buffer.drop (span.start+span.payload)).take span.backlen=encodeBacklen span.payload

section Groups

/-- The groups of a number in this many bytes, the lowest first; all but the last are marked. -/
def groupsOf : ℕ → ℕ → Bytes
  | 0,_ => []
  | 1,n => [UInt8.ofNat n]
  | width+2,n => UInt8.ofNat (n%128+128)::groupsOf (width+1) (n/128)

theorem encodeBacklen_eq (n : ℕ) :
    encodeBacklen n=(groupsOf (encodeBacklen n).length n).reverse := by
  unfold encodeBacklen
  split
  · rfl
  split
  · rfl
  split
  · simp only [length_cons,length_nil,groupsOf,Nat.div_div_eq_div_mul]
    rfl
  split
  · simp only [length_cons,length_nil,groupsOf,Nat.div_div_eq_div_mul]
    rfl
  · simp only [length_cons,length_nil,groupsOf,Nat.div_div_eq_div_mul]
    rfl

theorem decodeGroups_groupsOf (more : Bytes) {width n value bytesRead : ℕ} (hn : n < 128^(width+1))
    (hread : bytesRead+width < 5) :
    decodeGroups value bytesRead (groupsOf (width+1) n++more)=
      some (value+n*128^bytesRead,bytesRead+width+1) := by
  induction width generalizing n value bytesRead with
  | zero =>
    have hbyte := toNat_ofNat_of_lt (by omega : n < 256)
    rw [groupsOf,cons_append,decodeGroups]
    rw [hbyte,if_pos (by omega),Nat.mod_eq_of_lt (by omega)]
  | succ width ih =>
    have hbyte := toNat_ofNat_of_lt (by omega : n%128+128 < 256)
    have hdiv : n/128 < 128^(width+1) := by
      rw [Nat.div_lt_iff_lt_mul (by decide),← Nat.pow_succ]
      exact hn
    rw [groupsOf,cons_append,decodeGroups]
    rw [hbyte,if_neg (by omega),if_neg (by omega),ih hdiv (by omega),
      show (n%128+128)%128=n%128 by omega,Nat.pow_succ]
    -- the low group and the rest make up the number
    have hsplit : n%128*128^bytesRead+n/128*(128^bytesRead*128)=n*128^bytesRead := by
      calc n%128*128^bytesRead+n/128*(128^bytesRead*128)
          =(n%128+128*(n/128))*128^bytesRead := by ring
        _=n*128^bytesRead := by rw [Nat.mod_add_div]
    congr 2
    · omega
    · omega

theorem lt_of_decodeGroups {value bytesRead n width : ℕ} {bytes : Bytes}
    (h : decodeGroups value bytesRead bytes=some (n,width)) : width=0 ∨ bytesRead < width := by
  induction bytes generalizing value bytesRead with
  | nil => cases h
  | cons b before ih =>
    rw [decodeGroups] at h
    split at h
    · cases h
      exact .inr (Nat.lt_succ_self _)
    split at h
    · cases h
      exact .inl rfl
    · have := ih h
      omega

theorem groups_of_decodeGroups {more : Bytes} {width n value bytesRead : ℕ} {bytes : Bytes}
    (hlen : bytes.length=width+1)
    (h : decodeGroups value bytesRead (bytes++more)=some (n,bytesRead+width+1)) :
    ∃ m,bytes=groupsOf (width+1) m ∧ n=value+m*128^bytesRead := by
  induction width generalizing value bytesRead bytes with
  | zero =>
    obtain ⟨b,rfl⟩ := length_eq_one_iff.mp hlen
    rw [cons_append,nil_append,decodeGroups] at h
    split at h
    · rename_i hlast
      refine ⟨b.toNat,?_,?_⟩
      · rw [groupsOf,UInt8.ofNat_toNat]
      · cases h
        rw [Nat.mod_eq_of_lt hlast]
    split at h
    · cases h
    · have := lt_of_decodeGroups h
      omega
  | succ width ih =>
    obtain ⟨b,before,rfl⟩ := exists_cons_of_length_eq_add_one hlen
    rw [length_cons] at hlen
    rw [cons_append,decodeGroups] at h
    split at h
    · simp only [Option.some.injEq,Prod.mk.injEq] at h
      omega
    rename_i hmark
    split at h
    · cases h
    · have hread : bytesRead+(width+1)+1=bytesRead+1+width+1 := by omega
      rw [hread] at h
      obtain ⟨m,hbefore,hn⟩ := ih (by omega) h
      refine ⟨b.toNat%128+128*m,?_,?_⟩
      · have hb := b.toNat_lt
        rw [groupsOf,hbefore,show (b.toNat%128+128*m)%128+128=b.toNat by omega,UInt8.ofNat_toNat,
          show (b.toNat%128+128*m)/128=m by omega]
      · rw [hn,Nat.pow_succ]
        ring

theorem encodeBacklen_length (n : ℕ) :
    1 ≤ (encodeBacklen n).length ∧ (encodeBacklen n).length ≤ 5 := by
  unfold encodeBacklen
  split_ifs <;> exact ⟨by simp,by simp⟩

theorem lt_pow_encodeBacklen_length {n : ℕ} (hn : n < 2^35) :
    n < 128^(encodeBacklen n).length := by
  unfold encodeBacklen
  split_ifs <;> simp only [length_cons,length_nil] <;> omega

theorem decodeBacklenBackwards_iff {n : ℕ} (hn : n < 2^35) (front : Bytes) {field : Bytes}
    (hlen : field.length=(encodeBacklen n).length) :
    decodeBacklenBackwards (front++field)=some (n,field.length) ↔ field=encodeBacklen n := by
  have hbounds := encodeBacklen_length n
  have hwide := lt_pow_encodeBacklen_length hn
  have heq := encodeBacklen_eq n
  rw [← hlen] at hbounds hwide heq
  obtain ⟨width,hwidth⟩ : ∃ width,field.length=width+1 := ⟨field.length-1,by omega⟩
  rw [hwidth] at hwide heq hbounds
  rw [decodeBacklenBackwards,reverse_append,hwidth,heq]
  constructor
  · intro h
    have hlength : field.reverse.length=width+1 := by rw [length_reverse,hwidth]
    rw [← Nat.zero_add (width+1)] at h
    obtain ⟨m,hfield,hm⟩ := groups_of_decodeGroups hlength h
    rw [Nat.zero_add,Nat.pow_zero,Nat.mul_one] at hm
    rw [hm,← hfield,reverse_reverse]
  · intro h
    rw [h,reverse_reverse,decodeGroups_groupsOf _ hwide (by omega),Nat.zero_add,Nat.pow_zero,
      Nat.mul_one,Nat.zero_add]

end Groups

section Entries

def payloadSize (raw : Bytes) : ℕ := ((decodePayload raw).map Prod.snd).getD 0

def Closed (raw : Bytes) : Prop := raw.drop (payloadSize raw)=encodeBacklen (payloadSize raw)

variable {raw : Bytes} {e : Element}

theorem IsEntry.payload (h : IsEntry raw e) :
    (∀ rest,decodePayload (raw++rest)=some (e,payloadSize raw)) ∧
      raw.length=payloadSize raw+(encodeBacklen (payloadSize raw)).length := by
  have hself := h []
  rw [append_nil,decodeAt] at hself
  unfold payloadSize
  cases hpayload : decodePayload raw with
  | none =>
    rw [hpayload] at hself
    cases hself
  | some found =>
    obtain ⟨element,size⟩ := found
    rw [hpayload] at hself
    dsimp only at hself
    split at hself
    · cases hself
    · obtain ⟨rfl,hsize⟩ := Prod.mk.inj (Option.some.inj hself)
      obtain ⟨-,-,htake⟩ := decodePayload_take hpayload
      refine ⟨fun rest => ?_,hsize.symm⟩
      rw [← take_append_drop size raw,append_assoc]
      exact htake _

theorem IsEntry.field_length (h : IsEntry raw e) :
    (raw.drop (payloadSize raw)).length=(encodeBacklen (payloadSize raw)).length := by
  rw [length_drop,h.payload.2]
  omega

def spansOf : ℕ → List Bytes → List Span
  | _,[] => []
  | offset,raw::raws =>
    ⟨offset,payloadSize raw,(raw.drop (payloadSize raw)).length⟩::spansOf (offset+raw.length) raws

theorem spansOf_append (offset : ℕ) (before after : List Bytes) :
    spansOf offset (before++after)=
      spansOf offset before++spansOf (offset+before.flatten.length) after := by
  induction before generalizing offset with
  | nil => rfl
  | cons raw before ih =>
    rw [cons_append,spansOf,spansOf,ih,cons_append,flatten_cons,length_append,
      Nat.add_assoc]

variable {raws : List Bytes} {es : List Element}

theorem spansFrom_flatten (h : Forall₂ IsEntry raws es) {fuel : ℕ} (hfuel : raws.length < fuel)
    (offset : ℕ) : spansFrom fuel (raws.flatten++[eof]) offset=spansOf offset raws := by
  induction h generalizing fuel offset with
  | nil =>
    cases fuel with
    | zero => omega
    | succ fuel => rfl
  | cons hentry hrest ih =>
    rename_i raw e raws es
    cases fuel with
    | zero => omega
    | succ fuel =>
      rw [length_cons] at hfuel
      have hsize := hentry.payload.2
      rw [spansFrom,flatten_cons,append_assoc,if_pos (hentry.atEntry _),
        hentry.payload.1]
      dsimp only
      rw [← hsize,if_neg (by rw [length_append]; omega),drop_left,ih (by omega),spansOf,
        hentry.field_length]

theorem decodeBacklenBackwards_entry (h : IsEntry raw e) (hsmall : raw.length < 2^35)
    (front : Bytes) :
    decodeBacklenBackwards (front++raw)=
        some (payloadSize raw,(raw.drop (payloadSize raw)).length) ↔ Closed raw := by
  have hsplit : front++raw=front++raw.take (payloadSize raw)++raw.drop (payloadSize raw) := by
    rw [append_assoc,take_append_drop]
  have hle := h.payload.2
  rw [hsplit]
  exact decodeBacklenBackwards_iff (by omega) _ h.field_length

theorem entry_of_mem (h : Forall₂ IsEntry raws es) : ∀ raw∈raws,∃ e,IsEntry raw e := by
  induction h with
  | nil => exact nofun
  | cons hentry hrest ih =>
    intro raw hraw
    obtain rfl | hraw := mem_cons.mp hraw
    · exact ⟨_,hentry⟩
    · exact ih raw hraw

/-- From behind the last of some entries the walk to the left meets them all exactly when each
ends in the writer's length field. -/
theorem walkBack_iff (h : ∀ raw∈raws,∃ e,IsEntry raw e) (hsmall : raws.flatten.length < 2^35)
    {front tail : Bytes} (hfront : front.length=headerSize) {fuel : ℕ}
    (hfuel : raws.length ≤ fuel) :
    walkBack (front++raws.flatten++tail) fuel (headerSize+raws.flatten.length)=
        some (spansOf headerSize raws).reverse ↔ ∀ raw∈raws,Closed raw := by
  -- from the last entry to the first
  induction raws using List.reverseRecOn generalizing tail fuel with
  | nil => cases fuel <;> simp [walkBack,spansOf]
  | append_singleton raws raw ih =>
    obtain ⟨e,hraw⟩ := h raw (by simp)
    obtain ⟨fuel,rfl⟩ : ∃ fuel',fuel=fuel'+1 :=
      ⟨fuel-1,by rw [length_append,length_singleton] at hfuel; omega⟩
    have hflat : (raws++[raw]).flatten=raws.flatten++raw := by simp
    rw [hflat,length_append] at hsmall
    rw [length_append,length_singleton] at hfuel
    have hbuffer : front++(raws.flatten++raw)++tail=front++raws.flatten++(raw++tail) := by simp
    have hih := @ih (fun x hx => h x (mem_append_left _ hx)) (by omega) (raw++tail) fuel
      (by omega)
    have hpos := hraw.pos
    have hparts := hraw.payload.2
    have hfield := hraw.field_length
    have hwidth := (encodeBacklen_length (payloadSize raw)).1
    -- the bytes in front of the place where the step starts
    have htake : (front++(raws.flatten++raw)++tail).take (headerSize+(raws.flatten++raw).length)=
        front++raws.flatten++raw := by
      rw [← append_assoc front,take_left' (by simp only [length_append]; omega)]
    have hstep := decodeBacklenBackwards_entry hraw (by omega) (front++raws.flatten)
    rw [hflat,walkBack,if_neg (by rw [length_append]; omega),htake,spansOf_append,
      reverse_append,forall_mem_append,forall_mem_singleton]
    by_cases hclosed : Closed raw
    · rw [hstep.mpr hclosed]
      dsimp only
      have hoffset : headerSize+(raws.flatten++raw).length-
          (payloadSize raw+(raw.drop (payloadSize raw)).length)=
          headerSize+raws.flatten.length := by rw [length_append]; omega
      rw [if_neg (by rw [length_append]; omega),hoffset,hbuffer,spansOf,spansOf,
        reverse_singleton,singleton_append]
      constructor
      · intro hwalk
        obtain ⟨rest,hrest,heq⟩ := Option.map_eq_some_iff.mp hwalk
        rw [(List.cons.inj heq).2] at hrest
        exact ⟨hih.mp hrest,hclosed⟩
      · intro hall
        rw [hih.mpr hall.1]
        rfl
    · refine ⟨fun hwalk => absurd ?_ hclosed,fun hall => absurd hall.2 hclosed⟩
      apply hstep.mp
      cases hdecode : decodeBacklenBackwards (front++raws.flatten++raw) with
      | none =>
        rw [hdecode] at hwalk
        cases hwalk
      | some found =>
        obtain ⟨value,width⟩ := found
        rw [hdecode] at hwalk
        dsimp only at hwalk
        split at hwalk
        · cases hwalk
        · obtain ⟨rest,-,heq⟩ := Option.map_eq_some_iff.mp hwalk
          rw [spansOf,spansOf,reverse_singleton,singleton_append] at heq
          have hspan := (List.cons.inj heq).1
          rw [(Span.mk.inj hspan).2.1,(Span.mk.inj hspan).2.2]

theorem spelled_iff (h : ∀ raw∈raws,∃ e,IsEntry raw e) (front tail : Bytes) :
    (∀ span∈spansOf front.length raws,Spelled (front++raws.flatten++tail) span) ↔
      ∀ raw∈raws,Closed raw := by
  induction raws generalizing front with
  | nil => exact ⟨fun _ raw hraw => (by cases hraw),fun _ span hspan => (by cases hspan)⟩
  | cons raw raws ih =>
    obtain ⟨e,hraw⟩ := h raw mem_cons_self
    have hih := ih (fun x hx => h x (mem_cons_of_mem raw hx)) (front++raw)
    have hbuffer : front++(raw::raws).flatten++tail=front++raw++raws.flatten++tail := by simp
    have hsize := hraw.payload.2
    rw [length_append] at hih
    rw [spansOf,forall_mem_cons,forall_mem_cons,hbuffer,hih,Spelled]
    dsimp only
    have hdrop : (front++raw++raws.flatten++tail).drop (front.length+payloadSize raw)=
        raw.drop (payloadSize raw)++(raws.flatten++tail) := by
      rw [append_assoc,append_assoc,← drop_drop,drop_left,
        drop_append_of_le_length (by omega)]
    rw [hdrop,take_left]
    rfl

end Entries

section Validated

variable {lp : Listpack} {es : List Element} {stored : ℕ} {raws : List Bytes}

theorem layout_backwards_iff (h : Forall₂ IsEntry raws es)
    (hsmall : (layout stored raws).totalBytes < 2^32) :
    (layout stored raws).backwards=some (layout stored raws).spans.reverse ↔
      ∀ raw∈raws,Closed raw := by
  rw [totalBytes,layout_length] at hsmall
  have hle := length_le_flatten h
  have hend : (layout stored raws).buffer.length-1=headerSize+raws.flatten.length := by
    rw [layout_length,headerSize]
    omega
  rw [backwards,spans,layout_drop_header,spansFrom_flatten h (walk_fuel h),hend]
  nth_rewrite 1 [layout_buffer]
  refine walkBack_iff (entry_of_mem h) (by omega) ?_ (by rw [layout_length]; omega)
  rw [length_append,leBytes_length,leBytes_length,headerSize]

theorem layout_spelled_iff (h : Forall₂ IsEntry raws es) :
    (∀ span∈(layout stored raws).spans,Spelled (layout stored raws).buffer span) ↔
      ∀ raw∈raws,Closed raw := by
  rw [spans,layout_drop_header,spansFrom_flatten h (walk_fuel h),layout_buffer,
    headerSize_eq (7+raws.flatten.length) stored]
  exact spelled_iff (entry_of_mem h) _ _

theorem totalBytes_lt_of_fromBytes {bytes : Bytes} (h : fromBytes bytes=some lp) :
    lp.totalBytes < 2^32 := by
  obtain ⟨hbytes,-⟩ := holds_of_fromBytes h
  rw [totalBytes,hbytes]
  rw [Listpack.fromBytes] at h
  split at h
  · cases h
  split at h
  · cases h
  · rename_i hdeclared
    have hlt := leValue_lt (bytes.take 4)
    have hfour : (256 : ℕ)^(bytes.take 4).length ≤ 256^4 :=
      Nat.pow_le_pow_right (by decide) (by rw [length_take]; omega)
    omega

/-- The loader accepts exactly the well-formed buffers whose size its header can state. -/
theorem fromBytes_iff {bytes : Bytes} : fromBytes bytes=some lp ↔
    lp.buffer=bytes∧(∃ es,Holds lp es)∧lp.totalBytes < 2^32 := by
  constructor
  · intro h
    obtain ⟨hbytes,hholds⟩ := holds_of_fromBytes h
    exact ⟨hbytes,hholds,totalBytes_lt_of_fromBytes h⟩
  · rintro ⟨rfl,⟨es,hholds⟩,hsize⟩
    exact hholds.fromBytes hsize

/-- **Validation**: in an accepted listpack the steps to the left from the end byte, read from
the stored length fields, are the entries of the forward walk in reverse, down to the header,
exactly when each field is the one the writer puts there. -/
theorem backwards_iff_spelled {bytes : Bytes} (h : fromBytes bytes=some lp) :
    lp.backwards=some lp.spans.reverse ↔ ∀ span∈lp.spans,Spelled bytes span := by
  have hsmall := totalBytes_lt_of_fromBytes h
  obtain ⟨rfl,es,hholds⟩ := holds_of_fromBytes h
  obtain ⟨stored,raws,rfl,hentries,-,-⟩ := hholds
  rw [layout_backwards_iff hentries hsmall,layout_spelled_iff hentries]

theorem backwards_one :
    fromBytes [9,0,0,0,1,0,1,1,255]=some ⟨[9,0,0,0,1,0,1,1,255]⟩ ∧
      (⟨[9,0,0,0,1,0,1,1,255]⟩ : Listpack).backwards=
        some (⟨[9,0,0,0,1,0,1,1,255]⟩ : Listpack).spans.reverse := by
  have haccepted : fromBytes [9,0,0,0,1,0,1,1,255]=some ⟨[9,0,0,0,1,0,1,1,255]⟩ := by decide
  have hspans : (⟨[9,0,0,0,1,0,1,1,255]⟩ : Listpack).spans=[⟨6,1,1⟩] := by decide
  refine ⟨haccepted,(backwards_iff_spelled haccepted).mpr fun span hspan => ?_⟩
  rw [hspans,mem_singleton] at hspan
  rw [hspan]
  exact rfl

/-- The same element with another length behind it is accepted all the same. -/
theorem backwards_ignored :
    fromBytes [9,0,0,0,1,0,1,5,255]=some ⟨[9,0,0,0,1,0,1,5,255]⟩ ∧
      (⟨[9,0,0,0,1,0,1,5,255]⟩ : Listpack).backwards≠
        some (⟨[9,0,0,0,1,0,1,5,255]⟩ : Listpack).spans.reverse := by
  decide

end Validated

/-! ## Sequences of listpack operations -/

open Refinement List

def clear : Listpack :=
  setNumElements 0 (setTotalBytes (headerSize+1) ⟨replicate headerSize 0++[eof]⟩)

inductive Edit where
  | append (value : Bytes)
  | appendInteger (value : ℤ)
  | insertAt (index : ℕ) (value : Bytes)
  | replaceAt (index : ℕ) (value : Bytes)
  | eraseRange (index count : ℕ)
  | clear

def settle (lp : Listpack) (result : Option Listpack) : Bool×Listpack :=
  (result.isSome,result.getD lp)

/-- The call on the buffer; calls that return nothing count as true. -/
def Edit.step : Edit → Listpack → Bool×Listpack
  | .append value,lp => (true,lp.append value)
  | .appendInteger value,lp => (true,lp.appendInteger value)
  | .insertAt index value,lp => settle lp (lp.insertAt index value)
  | .replaceAt index value,lp => settle lp (lp.replaceAt index value)
  | .eraseRange index count,lp => settle lp (lp.eraseRange index count)
  | .clear,_ => (true,Listpack.clear)

def Edit.spec : Edit → List Bytes → Bool×List Bytes
  | .append value,xs => (true,xs++[value])
  | .appendInteger value,xs => (true,xs++[intDecimal value])
  | .insertAt index value,xs =>
    if index ≤ xs.length then (true,xs.take index++value::xs.drop index) else (false,xs)
  | .replaceAt index value,xs => if index < xs.length then (true,xs.set index value) else (false,xs)
  | .eraseRange index count,xs =>
    if count=0 then (true,xs)
    else if index+count ≤ xs.length then (true,xs.take index++xs.drop (index+count))
    else (false,xs)
  | .clear,_ => (true,[])

/-- The first position from `start` on, at a multiple of `step` from it, that holds the text. -/
def findText (value : Bytes) (start step : ℕ) (xs : List Bytes) : Option ℕ :=
  (xs.zipIdx.find? fun found =>
    start ≤ found.2 && (found.2-start)%step==0 && found.1==value).map Prod.snd

def textAt (buffer : Bytes) (offset : ℕ) : Option Bytes :=
  (decodeAt (buffer.drop offset)).map fun found => found.1.toString

/-- Everything that can be asked of a listpack is answered as by the list of texts. -/
structure Shows (lp : Listpack) (xs : List Bytes) : Prop where
  toStrings : lp.toStrings=xs
  get : ∀ index,(lp.get index).map Element.toString=xs[index]?
  numElements : lp.numElements=xs.length
  find : ∀ value start step,0 < step → lp.find value start step=findText value start step xs
  header : leValue (lp.buffer.take 4)=lp.totalBytes
  backwards : ∃ visited,lp.backwards=some visited ∧
    visited.map (fun span => textAt lp.buffer span.start)=xs.reverse.map some
  fromBytes : Listpack.fromBytes lp.buffer=some lp

def design : Design Edit Listpack (List Bytes) Bool where
  step := Edit.step
  spec := Edit.spec
  Sees := Shows

/-- The new element is shorter than 2^32 bytes, or an `int64`. -/
def Edit.Storable : Edit → Prop
  | .append value => value.length < 2^32
  | .appendInteger value => FitsSigned 64 value
  | .insertAt _ value => value.length < 2^32
  | .replaceAt _ value => value.length < 2^32
  | .eraseRange _ _ => True
  | .clear => True

/-- The element can be stored and the listpack stays smaller than 2^32 bytes. -/
def Edit.Allowed (edit : Edit) (lp : Listpack) (_ : List Bytes) : Prop :=
  edit.Storable ∧ (edit.step lp).2.totalBytes < 2^32

def Built (raw : Bytes) (e : Element) : Prop :=
  ∃ payload,raw=withBacklen payload ∧
    ∀ rest,decodePayload (payload++rest)=some (e,payload.length)

section Built

variable {raw : Bytes} {e : Element}

theorem Built.isEntry (h : Built raw e) : IsEntry raw e := by
  obtain ⟨payload,rfl,hpayload⟩ := h
  exact isEntry_withBacklen hpayload

theorem Built.closed (h : Built raw e) : Closed raw := by
  obtain ⟨payload,rfl,hpayload⟩ := h
  have hsize : payloadSize (withBacklen payload)=payload.length := by
    rw [payloadSize,withBacklen,hpayload]
    rfl
  rw [Closed,hsize,withBacklen,drop_left]

theorem built_buildIntegerEntry {value : ℤ} (h : FitsSigned 64 value) :
    Built (buildIntegerEntry value) (.integer value) :=
  ⟨_,rfl,decodePayload_encodeInteger h⟩

theorem built_buildEntry {value : Bytes} (h : value.length < 2^32) :
    Built (buildEntry value) (elementOf value) := by
  unfold buildEntry elementOf
  cases hint : stringToInt64 value with
  | some n => exact ⟨_,rfl,decodePayload_encodeInteger (stringToInt64_eq_some.mp hint).2⟩
  | none => exact ⟨_,rfl,decodePayload_encodeString h⟩

end Built

theorem elementOf_intDecimal {value : ℤ} (h : FitsSigned 64 value) :
    elementOf (intDecimal value)=.integer value := by
  rw [elementOf,stringToInt64_eq_some.mpr ⟨rfl,h⟩]

section Search

theorem findIn_map (value : Bytes) (start step : ℕ) (xs : List Bytes) (index : ℕ) :
    findIn (elementOf value) start step (xs.map elementOf) index=
      ((xs.zipIdx index).find? fun found =>
        start ≤ found.2 && (found.2-start)%step==0 && found.1==value).map Prod.snd := by
  induction xs generalizing index with
  | nil => rfl
  | cons x xs ih =>
    have hsame : (elementOf x==elementOf value)=(x==value) := by
      rw [Bool.eq_iff_iff,beq_iff_eq,beq_iff_eq]
      exact ⟨elementOf_injective,congrArg elementOf⟩
    rw [map_cons,findIn,zipIdx_cons,find?_cons,hsame,ih]
    cases decide (start ≤ index) && (index-start)%step==0 && x==value <;> rfl

end Search

section Walk

variable {es : List Element} {lp : Listpack}

theorem textAt_spansOf {raws : List Bytes} (h : Forall₂ IsEntry raws es) (front tail : Bytes) :
    (spansOf front.length raws).map
        (fun span => textAt (front++raws.flatten++tail) span.start)=
      es.map fun e => some e.toString := by
  induction h generalizing front with
  | nil => rfl
  | cons hentry hrest ih =>
    rename_i raw e raws es
    have hbuffer : front++(raw::raws).flatten++tail=front++raw++raws.flatten++tail := by simp
    have hih := ih (front++raw)
    rw [length_append] at hih
    have hfirst : textAt (front++raw++raws.flatten++tail) front.length=some e.toString := by
      rw [textAt,append_assoc,append_assoc,drop_left,hentry]
      rfl
    rw [spansOf,map_cons,hbuffer,hih,hfirst,map_cons]

theorem Holds.textAt_spans (h : Holds lp es) :
    lp.spans.map (fun span => textAt lp.buffer span.start)=es.map fun e => some e.toString := by
  obtain ⟨stored,raws,rfl,hentries,-,-⟩ := h
  rw [spans,layout_drop_header,spansFrom_flatten hentries (walk_fuel hentries),layout_buffer,
    headerSize_eq (7+raws.flatten.length) stored]
  exact textAt_spansOf hentries _ _

theorem HoldsBy.backwards (h : HoldsBy Built lp es) (hsmall : lp.totalBytes < 2^32) :
    lp.backwards=some lp.spans.reverse := by
  obtain ⟨stored,raws,rfl,hentries,-,-⟩ := h
  have hsound : Forall₂ IsEntry raws es := hentries.imp fun _ _ => Built.isEntry
  refine (layout_backwards_iff hsound hsmall).mpr fun raw hraw => ?_
  obtain ⟨i,hi,rfl⟩ := getElem_of_mem hraw
  have hlen := hentries.length_eq
  exact (hentries.get hi (by omega)).closed

theorem Holds.header (h : Holds lp es) (hsmall : lp.totalBytes < 2^32) :
    leValue (lp.buffer.take 4)=lp.totalBytes := by
  obtain ⟨stored,raws,rfl,-,-,-⟩ := h
  rw [totalBytes,layout_length] at hsmall ⊢
  rw [layout,take_left' (leBytes_length 4 _),leValue_leBytes_of_lt (by omega)]

end Walk

section Refused

variable {lp : Listpack} {es : List Element} {index : ℕ}

theorem Holds.offsetOf_none (h : Holds lp es) (hindex : es.length ≤ index) :
    lp.offsetOf index=none := by
  obtain ⟨stored,raws,rfl,hentries,-,-⟩ := h
  rw [layout_offsetOf hentries,if_neg (by omega)]

theorem Holds.insertAt_none (h : Holds lp es) (hindex : es.length < index) (value : Bytes) :
    lp.insertAt index value=none := by
  rw [Listpack.insertAt,h.numElements,if_neg (by omega),h.offsetOf_none (by omega)]

theorem Holds.replaceAt_none (h : Holds lp es) (hindex : es.length ≤ index) (value : Bytes) :
    lp.replaceAt index value=none := by
  rw [Listpack.replaceAt,h.offsetOf_none hindex]

theorem Holds.eraseRange_none {count : ℕ} (h : Holds lp es) (hpos : 0 < count)
    (hrange : es.length < index+count) : lp.eraseRange index count=none := by
  by_cases hindex : es.length ≤ index
  · rw [Listpack.eraseRange,if_neg (by omega),h.offsetOf_none hindex]
  · obtain ⟨stored,raws,rfl,hentries,-,-⟩ := h
    have hlen := hentries.length_eq
    have hdrop := layout_drop stored (raws.take index) (raws.drop index)
    rw [take_append_drop] at hdrop
    rw [Listpack.eraseRange,if_neg (by omega),layout_offsetOf hentries,if_pos (by omega)]
    dsimp only
    rw [hdrop,spanFrom_flatten (forall₂_drop index hentries),
      if_neg (by rw [length_drop]; omega)]

end Refused

/-- The listpack is built from the texts and small enough for its header. -/
structure Keeps (lp : Listpack) (xs : List Bytes) : Prop where
  built : HoldsBy Built lp (xs.map elementOf)
  small : lp.totalBytes < 2^32

section Keeps

variable {lp : Listpack} {xs : List Bytes}

theorem Keeps.shows (h : Keeps lp xs) : Shows lp xs := by
  have hholds := h.built.holds Built.isEntry
  have htexts : (xs.map elementOf).map (fun e => some e.toString)=xs.map some := by
    rw [map_map]
    exact map_congr_left fun x _ => congrArg some (toString_elementOf x)
  constructor
  · rw [hholds.toStrings,map_toString_elementOf]
  · intro index
    rw [hholds.get,getElem?_map,Option.map_map]
    cases xs[index]? with
    | none => rfl
    | some x => exact congrArg some (toString_elementOf x)
  · rw [hholds.numElements,length_map]
  · intro value start step _
    rw [hholds.find,findIn_map,findText]
  · exact hholds.header h.small
  · refine ⟨_,h.built.backwards h.small,?_⟩
    rw [map_reverse,hholds.textAt_spans,htexts,map_reverse]
  · exact hholds.fromBytes h.small

theorem keeps_empty : Keeps empty [] :=
  ⟨⟨0,[],rfl,.nil,Nat.zero_le _,fun _ => rfl⟩,by decide⟩

theorem HoldsBy.edit (h : HoldsBy Built lp (xs.map elementOf)) {edit : Edit}
    (hedit : edit.Storable) :
    (edit.step lp).1=(edit.spec xs).1 ∧
      HoldsBy Built (edit.step lp).2 ((edit.spec xs).2.map elementOf) := by
  have hlen : (xs.map elementOf).length=xs.length := length_map _
  have hholds : Holds lp (xs.map elementOf) := h.holds Built.isEntry
  cases edit with
  | append value =>
    refine ⟨rfl,?_⟩
    rw [Edit.spec,map_append]
    exact h.append_entry (built_buildEntry hedit)
  | appendInteger value =>
    refine ⟨rfl,?_⟩
    rw [Edit.spec,map_append,map_singleton,elementOf_intDecimal hedit]
    exact h.append_entry (built_buildIntegerEntry hedit)
  | insertAt index value =>
    rw [Edit.step,Edit.spec]
    by_cases hindex : index ≤ xs.length
    · have hin : index ≤ (xs.map elementOf).length := by rwa [length_map]
      obtain ⟨lp',hcall,hholds'⟩ := h.insertAt Built.isEntry (built_buildEntry hedit) hin
      rw [if_pos hindex,hcall]
      refine ⟨rfl,?_⟩
      rw [map_append,map_cons,map_take,map_drop]
      exact hholds'
    · rw [if_neg hindex,hholds.insertAt_none (by omega) value]
      exact ⟨rfl,h⟩
  | replaceAt index value =>
    rw [Edit.step,Edit.spec]
    by_cases hindex : index < xs.length
    · have hin : index < (xs.map elementOf).length := by rwa [length_map]
      obtain ⟨lp',hcall,hholds'⟩ := h.replaceAt Built.isEntry (built_buildEntry hedit) hin
      rw [if_pos hindex,hcall]
      refine ⟨rfl,?_⟩
      rw [map_set]
      exact hholds'
    · rw [if_neg hindex,hholds.replaceAt_none (by omega) value]
      exact ⟨rfl,h⟩
  | eraseRange index count =>
    rw [Edit.step,Edit.spec]
    by_cases hcount : count=0
    · rw [if_pos hcount,Listpack.eraseRange,if_pos hcount]
      exact ⟨rfl,h⟩
    rw [if_neg hcount]
    by_cases hindex : index+count ≤ xs.length
    · have hin : index+count ≤ (xs.map elementOf).length := by rwa [length_map]
      obtain ⟨lp',hcall,hholds'⟩ := h.eraseRange Built.isEntry (by omega) hin
      rw [if_pos hindex,hcall]
      refine ⟨rfl,?_⟩
      rw [map_append,map_take,map_drop]
      exact hholds'
    · rw [if_neg hindex,hholds.eraseRange_none (by omega) (by omega)]
      exact ⟨rfl,h⟩
  | clear => exact ⟨rfl,keeps_empty.built⟩

end Keeps

theorem simulates : design.Simulates Keeps Edit.Allowed where
  sees h := h.shows
  result h hallowed := (h.built.edit hallowed.1).1
  next h hallowed := ⟨(h.built.edit hallowed.1).2,hallowed.2⟩

/-- **Listpacks**: a call that returns false leaves the bytes alone, and every sequence of calls
whose elements can be stored and which stays below 2^32 bytes is followed by the list of texts. -/
theorem listpack_refines :
    (∀ (edit : Edit) (lp : Listpack),(edit.step lp).1=false → (edit.step lp).2=lp) ∧
      ∀ edits : List Edit,design.Meets Edit.Allowed edits empty [] →
        design.Follows edits empty [] := by
  constructor
  · intro edit lp hfalse
    have hsettle : ∀ result,(settle lp result).1=false → (settle lp result).2=lp := by
      intro result hnone
      cases result with
      | none => rfl
      | some lp' => cases hnone
    cases edit with
    | append value => cases hfalse
    | appendInteger value => cases hfalse
    | insertAt index value => exact hsettle _ hfalse
    | replaceAt index value => exact hsettle _ hfalse
    | eraseRange index count => exact hsettle _ hfalse
    | clear => cases hfalse
  · exact fun edits => simulates.follows edits keeps_empty

theorem listpack_refines_pair :
    design.Follows [.append [97],.appendInteger 300,.insertAt 3 [98],.eraseRange 0 2] empty [] := by
  refine listpack_refines.2 _ ⟨⟨?_,?_⟩,⟨?_,?_⟩,⟨?_,?_⟩,⟨trivial,?_⟩,trivial⟩
  · exact (by decide : (1 : ℕ) < 2^32)
  · decide +kernel
  · exact (by decide : FitsSigned 64 300)
  · decide +kernel
  · exact (by decide : (1 : ℕ) < 2^32)
  · decide +kernel
  · decide +kernel

end Mnemos.Listpack
