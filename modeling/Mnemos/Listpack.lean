import Mathlib.Data.List.Forall2
import Mnemos.Bytes

/-!
# Listpacks

A listpack is one buffer: total size, element count, entries and an end byte.
The bytes of an entry decode to the same element whatever follows them.
-/

namespace Mnemos

/-- Actual `Listpack::Element`, an integer or a piece of text. -/
inductive Element where
  | integer (n : ℤ)
  | string (s : Bytes)
deriving DecidableEq,Repr

def Element.toString : Element → Bytes
  | .integer n => intDecimal n
  | .string s => s

structure Listpack where
  buffer : Bytes
deriving DecidableEq,Repr

namespace Listpack

def headerSize : ℕ := 6

def eof : UInt8 := 255

def maxInlineCount : ℕ := 65535

def encodeInteger (value : ℤ) : Bytes :=
  if 0 ≤ value ∧ value ≤ 127 then [UInt8.ofNat value.toNat]
  else if -4096 ≤ value ∧ value ≤ 4095 then
    let raw := toUnsigned 13 value
    [UInt8.ofNat (192+raw/256),UInt8.ofNat (raw%256)]
  else if -32768 ≤ value ∧ value ≤ 32767 then 241::leBytes 2 (toUnsigned 16 value)
  else if -8388608 ≤ value ∧ value ≤ 8388607 then 242::leBytes 3 (toUnsigned 24 value)
  else if -2147483648 ≤ value ∧ value ≤ 2147483647 then 243::leBytes 4 (toUnsigned 32 value)
  else 244::leBytes 8 (toUnsigned 64 value)

/-- The 32-bit form keeps the low bits of the length. -/
def encodeString (value : Bytes) : Bytes :=
  let len := value.length
  if len < 64 then UInt8.ofNat (128+len)::value
  else if len < 4096 then UInt8.ofNat (224+len/256)::UInt8.ofNat (len%256)::value
  else 240::leBytes 4 len++value

def encodeBacklen (value : ℕ) : Bytes :=
  if value ≤ 127 then [UInt8.ofNat value]
  else if value < 16384 then [UInt8.ofNat (value/2^7),UInt8.ofNat (value%128+128)]
  else if value < 2097152 then
    [UInt8.ofNat (value/2^14),UInt8.ofNat (value/2^7%128+128),UInt8.ofNat (value%128+128)]
  else if value < 268435456 then
    [UInt8.ofNat (value/2^21),UInt8.ofNat (value/2^14%128+128),UInt8.ofNat (value/2^7%128+128),
      UInt8.ofNat (value%128+128)]
  else
    [UInt8.ofNat (value/2^28),UInt8.ofNat (value/2^21%128+128),UInt8.ofNat (value/2^14%128+128),
      UInt8.ofNat (value/2^7%128+128),UInt8.ofNat (value%128+128)]

def withBacklen (payload : Bytes) : Bytes := payload++encodeBacklen payload.length

def buildEntry (value : Bytes) : Bytes :=
  withBacklen
    (match stringToInt64 value with
    | some n => encodeInteger n
    | none => encodeString value)

def buildIntegerEntry (value : ℤ) : Bytes := withBacklen (encodeInteger value)

/-- An integer field of `width` bytes after the encoding byte. -/
def decodeInt (width : ℕ) (data : Bytes) : Option (Element×ℕ) :=
  if data.length < width then none
  else some (.integer (toSigned (8*width) (leValue (data.take width))),1+width)

def decodeText (skip len : ℕ) (data : Bytes) : Option (Element×ℕ) :=
  if data.length < len then none else some (.string (data.take len),skip+len)

/-- The case split of `decodeAt` on the encoding byte, with the bytes after it:
the element and its payload size. -/
def decodeData (code : ℕ) (data : Bytes) : Option (Element×ℕ) :=
  if code < 128 then some (.integer code,1)
  else if code < 192 then decodeText 1 (code%64) data
  else if code < 224 then
    match data with
    | [] => none
    | low::_ => some (.integer (toSigned 13 (code%32*256+low.toNat)),2)
  else if code < 240 then
    match data with
    | [] => none
    | low::text => decodeText 2 (code%16*256+low.toNat) text
  else if code=240 then
    if data.length < 4 then none else decodeText 5 (leValue (data.take 4)) (data.drop 4)
  else if code=241 then decodeInt 2 data
  else if code=242 then decodeInt 3 data
  else if code=243 then decodeInt 4 data
  else if code=244 then decodeInt 8 data
  else none

def decodePayload : Bytes → Option (Element×ℕ)
  | [] => none
  | encoding::data => decodeData encoding.toNat data

/-- Actual `decodeAt` on the bytes from the offset to the end of the buffer:
the element and the size of its entry. -/
def decodeAt (rest : Bytes) : Option (Element×ℕ) :=
  match decodePayload rest with
  | none => none
  | some (element,payloadSize) =>
    let size := payloadSize+(encodeBacklen payloadSize).length
    if rest.length < size then none else some (element,size)

/-- The loop condition of every walk: not at the end of the buffer or its end byte. -/
def atEntry : Bytes → Bool
  | [] => false
  | b::_ => b != eof

def empty : Listpack := ⟨leBytes 4 7++leBytes 2 0++[eof]⟩

def setTotalBytes (value : ℕ) (lp : Listpack) : Listpack := ⟨leBytes 4 value++lp.buffer.drop 4⟩

def setNumElements (value : ℕ) (lp : Listpack) : Listpack :=
  ⟨lp.buffer.take 4++leBytes 2 (min value maxInlineCount)++lp.buffer.drop headerSize⟩

def storedCount (lp : Listpack) : ℕ := leValue ((lp.buffer.drop 4).take 2)

def totalBytes (lp : Listpack) : ℕ := lp.buffer.length

def elementsFrom : ℕ → Bytes → List Element
  | 0,_ => []
  | fuel+1,rest =>
    if atEntry rest then
      match decodeAt rest with
      | none => []
      | some (element,size) => element::elementsFrom fuel (rest.drop size)
    else []

def elements (lp : Listpack) : List Element :=
  elementsFrom lp.buffer.length (lp.buffer.drop headerSize)

def toStrings (lp : Listpack) : List Bytes := lp.elements.map Element.toString

/-- The header, or a walk once the header saturated. -/
def numElements (lp : Listpack) : ℕ :=
  if lp.storedCount < maxInlineCount then lp.storedCount else lp.elements.length

def offsetFrom : ℕ → Bytes → ℕ → ℕ → Option ℕ
  | 0,_,_,_ => none
  | fuel+1,rest,offset,remaining =>
    if atEntry rest then
      match remaining with
      | 0 => some offset
      | remaining+1 =>
        match decodeAt rest with
        | none => none
        | some (_,size) => offsetFrom fuel (rest.drop size) (offset+size) remaining
    else none

def offsetOf (lp : Listpack) (index : ℕ) : Option ℕ :=
  offsetFrom lp.buffer.length (lp.buffer.drop headerSize) headerSize index

def get (lp : Listpack) (index : ℕ) : Option Element :=
  match lp.offsetOf index with
  | none => none
  | some offset => (decodeAt (lp.buffer.drop offset)).map Prod.fst

def spliceIn (offset : ℕ) (entry : Bytes) (lp : Listpack) : Listpack :=
  let buffer := lp.buffer.take offset++entry++lp.buffer.drop offset
  setTotalBytes buffer.length ⟨buffer⟩

def countInserted (lp : Listpack) : Listpack :=
  let stored := lp.storedCount
  if stored < maxInlineCount then setNumElements (stored+1) lp else lp

def append (lp : Listpack) (value : Bytes) : Listpack :=
  countInserted (spliceIn (lp.buffer.length-1) (buildEntry value) lp)

def appendInteger (lp : Listpack) (value : ℤ) : Listpack :=
  countInserted (spliceIn (lp.buffer.length-1) (buildIntegerEntry value) lp)

/-- The comparison of `find` against a value whose integer parse is `needle`. -/
def matchesNeedle (needle : Option ℤ) (value : Bytes) : Element → Bool
  | .integer n => needle==some n
  | .string s => needle.isNone && s==value

def findFrom (needle : Option ℤ) (value : Bytes) (start step : ℕ) : ℕ → Bytes → ℕ → Option ℕ
  | 0,_,_ => none
  | fuel+1,rest,index =>
    if atEntry rest then
      match decodeAt rest with
      | none => none
      | some (element,size) =>
        if start ≤ index && (index-start)%step==0 && matchesNeedle needle value element then
          some index
        else findFrom needle value start step fuel (rest.drop size) (index+1)
    else none

def find (lp : Listpack) (value : Bytes) (start step : ℕ) : Option ℕ :=
  findFrom (stringToInt64 value) value start step lp.buffer.length (lp.buffer.drop headerSize) 0

/-- The loop of `eraseRange`: the size of `count` consecutive entries. -/
def spanFrom : ℕ → Bytes → Option ℕ
  | 0,_ => some 0
  | count+1,rest =>
    if atEntry rest then
      match decodeAt rest with
      | none => none
      | some (_,size) => (spanFrom count (rest.drop size)).map (size+·)
    else none

/-- None when it returns false and leaves the buffer alone. -/
def eraseRange (lp : Listpack) (index count : ℕ) : Option Listpack :=
  if count=0 then some lp
  else
    match lp.offsetOf index with
    | none => none
    | some start =>
      match spanFrom count (lp.buffer.drop start) with
      | none => none
      | some span =>
        let buffer := lp.buffer.take start++lp.buffer.drop (start+span)
        let erased := setTotalBytes buffer.length ⟨buffer⟩
        let stored := erased.storedCount
        if stored < maxInlineCount then some (setNumElements (stored-count) erased)
        else some (setNumElements erased.numElements erased)

def eraseAt (lp : Listpack) (index : ℕ) : Option Listpack := lp.eraseRange index 1

def replaceAt (lp : Listpack) (index : ℕ) (value : Bytes) : Option Listpack :=
  match lp.offsetOf index with
  | none => none
  | some offset =>
    match decodeAt (lp.buffer.drop offset) with
    | none => none
    | some (_,oldSize) =>
      let buffer := lp.buffer.take offset++buildEntry value++lp.buffer.drop (offset+oldSize)
      some (setTotalBytes buffer.length ⟨buffer⟩)

def insertAt (lp : Listpack) (index : ℕ) (value : Bytes) : Option Listpack :=
  let offset :=
    if index=lp.numElements then some (lp.buffer.length-1) else lp.offsetOf index
  match offset with
  | none => none
  | some offset => some (countInserted (spliceIn offset (buildEntry value) lp))

/-- The validating walk of `fromBytes`: entries counted and bytes not walked. -/
def validateFrom : ℕ → Bytes → ℕ → Option (ℕ×Bytes)
  | 0,_,_ => none
  | fuel+1,rest,counted =>
    if atEntry rest then
      match decodeAt rest with
      | none => none
      | some (_,size) => validateFrom fuel (rest.drop size) (counted+1)
    else some (counted,rest)

def fromBytes (bytes : Bytes) : Option Listpack :=
  if bytes.length < headerSize+1 then none
  else if leValue (bytes.take 4)≠bytes.length then none
  else if bytes.getLast?≠some eof then none
  else
    match validateFrom bytes.length (bytes.drop headerSize) 0 with
    | none => none
    | some (counted,rest) =>
      if rest.length≠1 then none
      else if (⟨bytes⟩ : Listpack).storedCount < maxInlineCount &&
          (⟨bytes⟩ : Listpack).storedCount != counted then none
      else some ⟨bytes⟩

end Listpack

/-! ## Listpack entries -/

open List

def elementOf (value : Bytes) : Element :=
  match stringToInt64 value with
  | some n => .integer n
  | none => .string value

@[simp] theorem toString_elementOf (value : Bytes) : (elementOf value).toString=value := by
  unfold elementOf
  split
  · rename_i n h
    exact (stringToInt64_eq_some.mp h).1.symm
  · rfl

theorem elementOf_injective {a b : Bytes} (h : elementOf a=elementOf b) : a=b := by
  rw [← toString_elementOf a,h,toString_elementOf]

namespace Listpack

theorem matchesNeedle_iff (value : Bytes) (element : Element) :
    matchesNeedle (stringToInt64 value) value element=true ↔ element=elementOf value := by
  unfold elementOf
  cases element with
  | integer n =>
    cases stringToInt64 value with
    | none => simp [matchesNeedle]
    | some m =>
      simp only [matchesNeedle,beq_iff_eq,Option.some.injEq,Element.integer.injEq]
      exact eq_comm
  | string s =>
    cases stringToInt64 value with
    | none => simp [matchesNeedle]
    | some m => simp [matchesNeedle]

/-- These bytes decode as this element, whatever follows them. -/
def IsEntry (bytes : Bytes) (element : Element) : Prop :=
  ∀ rest, decodeAt (bytes++rest)=some (element,bytes.length)

theorem decodeInt_append {width : ℕ} {field : Bytes} (hlen : field.length=width) (rest : Bytes) :
    decodeInt width (field++rest)=
      some (.integer (toSigned (8*width) (leValue field)),1+width) := by
  rw [decodeInt,if_neg (by rw [length_append]; omega),← hlen,take_left]

theorem decodeText_append (skip : ℕ) (text rest : Bytes) :
    decodeText skip text.length (text++rest)=some (.string text,skip+text.length) := by
  rw [decodeText,if_neg (by rw [length_append]; omega),take_left]

variable {element : Element} {bytes : Bytes} {code size : ℕ} {value : ℤ} {n : ℤ}

theorem decodeInt_take {width size : ℕ} {data : Bytes}
    (h : decodeInt width data=some (element,size)) :
    size=1+width ∧ width ≤ data.length ∧
      ∀ rest, decodeInt width (data.take width++rest)=some (element,size) := by
  rw [decodeInt] at h
  split at h
  · cases h
  rename_i hlen
  obtain ⟨rfl,rfl⟩ := Prod.mk.inj (Option.some.inj h)
  have hle : width ≤ data.length := by omega
  exact ⟨rfl,hle,fun rest => decodeInt_append (length_take_of_le hle) rest⟩

theorem decodeText_take {skip len size : ℕ} {data : Bytes}
    (h : decodeText skip len data=some (element,size)) :
    size=skip+len ∧ len ≤ data.length ∧
      ∀ rest, decodeText skip len (data.take len++rest)=some (element,size) := by
  rw [decodeText] at h
  split at h
  · cases h
  rename_i hlen
  obtain ⟨rfl,rfl⟩ := Prod.mk.inj (Option.some.inj h)
  have hle : len ≤ data.length := by omega
  have htake := length_take_of_le hle
  refine ⟨rfl,hle,fun rest => ?_⟩
  have happ := decodeText_append skip (data.take len) rest
  rwa [htake] at happ

theorem toNat_ofNat_of_lt {n : ℕ} (h : n < 256) : (UInt8.ofNat n).toNat=n := by
  rw [UInt8.toNat_ofNat',Nat.mod_eq_of_lt h]

theorem decodePayload_encodeString {value : Bytes} (hsize : value.length < 2^32) (rest : Bytes) :
    decodePayload (encodeString value++rest)=
      some (.string value,(encodeString value).length) := by
  unfold encodeString
  dsimp only
  split
  · rename_i h64
    have hcode := toNat_ofNat_of_lt (by omega : 128+value.length < 256)
    rw [cons_append,decodePayload,hcode]
    unfold decodeData
    rw [if_neg (by omega),if_pos (by omega),show (128+value.length)%64=value.length by omega,
      decodeText_append,length_cons,Nat.add_comm]
  · split
    · rename_i h64 h4096
      have hcode := toNat_ofNat_of_lt (by omega : 224+value.length/256 < 256)
      have hlow := toNat_ofNat_of_lt (by omega : value.length%256 < 256)
      rw [cons_append,cons_append,decodePayload,hcode]
      unfold decodeData
      simp only [hlow]
      rw [if_neg (by omega),if_neg (by omega),if_neg (by omega),if_pos (by omega),
        show (224+value.length/256)%16*256+value.length%256=value.length by omega,
        decodeText_append,length_cons,length_cons]
      congr 2
      omega
    · have hcode : (240 : UInt8).toNat=240 := rfl
      rw [cons_append,cons_append,append_assoc,decodePayload,hcode]
      unfold decodeData
      rw [if_neg (by omega),if_neg (by omega),if_neg (by omega),if_neg (by omega),if_pos rfl,
        if_neg (by simp),take_left' (leBytes_length 4 _),drop_left' (leBytes_length 4 _),
        leValue_leBytes_of_lt (by omega),decodeText_append,length_cons,length_append,
        leBytes_length]
      congr 2
      omega

theorem toSigned_leBytes {width : ℕ} (hwidth : 0 < width) (h : FitsSigned (8*width) value) :
    toSigned (8*width) (leValue (leBytes width (toUnsigned (8*width) value)))=value := by
  have hlt := toUnsigned_lt (8*width) value
  rw [leValue_leBytes_of_lt (by rw [pow_bytes]; exact hlt)]
  exact toSigned_toUnsigned (by omega) h

theorem decodePayload_wide {lead : UInt8} {width : ℕ} (hwidth : 0 < width)
    (hlead : ∀ data,decodeData lead.toNat data=decodeInt width data)
    (hfits : FitsSigned (8*width) value) (rest : Bytes) :
    decodePayload (lead::leBytes width (toUnsigned (8*width) value)++rest)=
      some (.integer value,(lead::leBytes width (toUnsigned (8*width) value)).length) := by
  rw [cons_append,decodePayload,hlead,decodeInt_append (leBytes_length width _),length_cons,
    leBytes_length,toSigned_leBytes hwidth hfits,Nat.add_comm]

theorem decodePayload_encodeInteger (hfits : FitsSigned 64 value) (rest : Bytes) :
    decodePayload (encodeInteger value++rest)=
      some (.integer value,(encodeInteger value).length) := by
  unfold encodeInteger
  split
  · rename_i hsmall
    have hcode := toNat_ofNat_of_lt (by omega : value.toNat < 256)
    rw [cons_append,decodePayload,hcode]
    unfold decodeData
    rw [if_pos (by omega),Int.toNat_of_nonneg hsmall.1,length_singleton]
  split
  · rename_i h13
    have hlt := toUnsigned_lt 13 value
    have hback := toSigned_toUnsigned (by decide : 0 < 13) (show FitsSigned 13 value by
      unfold FitsSigned; omega)
    have hcode := toNat_ofNat_of_lt (by omega : 192+toUnsigned 13 value/256 < 256)
    have hlow := toNat_ofNat_of_lt (by omega : toUnsigned 13 value%256 < 256)
    dsimp only
    rw [cons_append,cons_append,decodePayload,hcode]
    unfold decodeData
    simp only [hlow]
    rw [if_neg (by omega),if_neg (by omega),if_pos (by omega),
      show (192+toUnsigned 13 value/256)%32*256+toUnsigned 13 value%256=toUnsigned 13 value by
        omega,hback]
    rfl
  split
  · exact @decodePayload_wide value 241 2 (by decide) (fun _ => rfl) (by unfold FitsSigned; omega) rest
  split
  · exact @decodePayload_wide value 242 3 (by decide) (fun _ => rfl) (by unfold FitsSigned; omega) rest
  split
  · exact @decodePayload_wide value 243 4 (by decide) (fun _ => rfl) (by unfold FitsSigned; omega) rest
  · exact @decodePayload_wide value 244 8 (by decide) (fun _ => rfl) hfits rest

/-- The code alone decides how the bytes behind it are read. -/
theorem decodeData_forms (code : ℕ) :
    (code < 128 ∧ ∀ data,decodeData code data=some (.integer code,1)) ∨
    (∀ data,decodeData code data=decodeText 1 (code%64) data) ∨
    (decodeData code []=none ∧ ∀ low text,decodeData code (low::text)=
      some (.integer (toSigned 13 (code%32*256+low.toNat)),2)) ∨
    (decodeData code []=none ∧ ∀ low text,decodeData code (low::text)=
      decodeText 2 (code%16*256+low.toNat) text) ∨
    (∀ data,decodeData code data=if data.length < 4 then none
      else decodeText 5 (leValue (data.take 4)) (data.drop 4)) ∨
    (∃ width,0 < width ∧ width ≤ 8 ∧ ∀ data,decodeData code data=decodeInt width data) ∨
    ∀ data,decodeData code data=none := by
  by_cases h1 : code < 128
  · exact .inl ⟨h1,fun _ => if_pos h1⟩
  by_cases h2 : code < 192
  · exact .inr (.inl fun _ => (if_neg h1).trans (if_pos h2))
  by_cases h3 : code < 224
  · refine .inr (.inr (.inl ⟨?_,fun _ _ => ?_⟩)) <;>
      exact (if_neg h1).trans ((if_neg h2).trans (if_pos h3))
  by_cases h4 : code < 240
  · refine .inr (.inr (.inr (.inl ⟨?_,fun _ _ => ?_⟩))) <;>
      exact (if_neg h1).trans ((if_neg h2).trans ((if_neg h3).trans (if_pos h4)))
  refine .inr (.inr (.inr (.inr ?_)))
  by_cases h5 : code=240
  · exact .inl (h5 ▸ fun _ => rfl)
  by_cases h6 : code=241
  · exact .inr (.inl ⟨2,by decide,by decide,h6 ▸ fun _ => rfl⟩)
  by_cases h7 : code=242
  · exact .inr (.inl ⟨3,by decide,by decide,h7 ▸ fun _ => rfl⟩)
  by_cases h8 : code=243
  · exact .inr (.inl ⟨4,by decide,by decide,h8 ▸ fun _ => rfl⟩)
  by_cases h9 : code=244
  · exact .inr (.inl ⟨8,by decide,by decide,h9 ▸ fun _ => rfl⟩)
  · refine .inr (.inr fun _ => ?_)
    unfold decodeData
    simp only [h1,h2,h3,h4,h5,h6,h7,h8,h9,if_false]

theorem decodeData_take {data : Bytes} (h : decodeData code data=some (element,size)) :
    0 < size ∧ size ≤ data.length+1 ∧
      ∀ rest, decodeData code (data.take (size-1)++rest)=some (element,size) := by
  rcases decodeData_forms code with
    ⟨-,hform⟩ | hform | ⟨hnil,hform⟩ | ⟨hnil,hform⟩ | hform | ⟨width,-,-,hform⟩ | hform
  · rw [hform] at h
    obtain ⟨rfl,rfl⟩ := Prod.mk.inj (Option.some.inj h)
    exact ⟨one_pos,by omega,fun rest => hform _⟩
  · rw [hform] at h
    obtain ⟨rfl,hlen,htake⟩ := decodeText_take h
    refine ⟨by omega,by omega,fun rest => ?_⟩
    rw [hform,Nat.add_sub_cancel_left,htake]
  · cases data with
    | nil => cases hnil.symm.trans h
    | cons low text =>
      rw [hform] at h
      obtain ⟨rfl,rfl⟩ := Prod.mk.inj (Option.some.inj h)
      exact ⟨by omega,by simp,fun rest => hform low _⟩
  · cases data with
    | nil => cases hnil.symm.trans h
    | cons low text =>
      rw [hform] at h
      obtain ⟨rfl,hlen,htake⟩ := decodeText_take h
      refine ⟨by omega,by rw [length_cons]; omega,fun rest => ?_⟩
      rw [show 2+(code%16*256+low.toNat)-1=(code%16*256+low.toNat)+1 by omega,take_succ_cons,
        cons_append,hform,htake]
  · rw [hform] at h
    split at h
    · cases h
    · rename_i h4
      obtain ⟨rfl,hlen,htake⟩ := decodeText_take h
      rw [length_drop] at hlen
      refine ⟨by omega,by omega,fun rest => ?_⟩
      have hsplit : data.take (5+leValue (data.take 4)-1)=
          data.take 4++(data.drop 4).take (leValue (data.take 4)) := by
        rw [show 5+leValue (data.take 4)-1=4+leValue (data.take 4) by omega,take_add]
      have hfour : (data.take 4).length=4 := length_take_of_le (by omega)
      rw [hsplit,append_assoc,hform,if_neg (by rw [length_append,hfour]; omega),
        take_left' hfour,drop_left' hfour,htake]
  · rw [hform] at h
    obtain ⟨rfl,hlen,htake⟩ := decodeInt_take h
    refine ⟨by omega,by omega,fun rest => ?_⟩
    rw [hform,Nat.add_sub_cancel_left,htake]
  · rw [hform] at h
    cases h

theorem decodePayload_take {size : ℕ} {p : Bytes} (h : decodePayload p=some (element,size)) :
    0 < size ∧ size ≤ p.length ∧
      ∀ rest, decodePayload (p.take size++rest)=some (element,size) := by
  cases p with
  | nil => cases h
  | cons encoding data =>
    obtain ⟨hpos,hlen,htake⟩ := decodeData_take h
    refine ⟨hpos,by simpa using hlen,fun rest => ?_⟩
    rw [show size=size-1+1 by omega,take_succ_cons,cons_append,decodePayload,
      ← show size=size-1+1 by omega]
    exact htake rest

theorem isEntry_withBacklen {payload : Bytes}
    (h : ∀ rest, decodePayload (payload++rest)=some (element,payload.length)) :
    IsEntry (withBacklen payload) element := by
  intro rest
  rw [withBacklen,decodeAt,append_assoc,h]
  dsimp only
  rw [if_neg (by simp only [length_append]; omega),length_append]

theorem isEntry_buildIntegerEntry (h : FitsSigned 64 value) :
    IsEntry (buildIntegerEntry value) (.integer value) :=
  isEntry_withBacklen (decodePayload_encodeInteger h)

theorem isEntry_buildEntry {value : Bytes} (h : value.length < 2^32) :
    IsEntry (buildEntry value) (elementOf value) := by
  unfold buildEntry elementOf
  cases hint : stringToInt64 value with
  | some n => exact isEntry_withBacklen (decodePayload_encodeInteger (stringToInt64_eq_some.mp hint).2)
  | none => exact isEntry_withBacklen (decodePayload_encodeString h)

theorem isEntry_of_decodeAt {size : ℕ} {p : Bytes} (h : decodeAt p=some (element,size)) :
    0 < size ∧ size ≤ p.length ∧ IsEntry (p.take size) element := by
  unfold decodeAt at h
  cases hpay : decodePayload p with
  | none =>
    rw [hpay] at h
    cases h
  | some found =>
    obtain ⟨e,payload⟩ := found
    rw [hpay] at h
    dsimp only at h
    split at h
    · cases h
    rename_i hlen
    obtain ⟨rfl,rfl⟩ := Prod.mk.inj (Option.some.inj h)
    obtain ⟨hpos,hle,htake⟩ := decodePayload_take hpay
    refine ⟨by omega,by omega,fun rest => ?_⟩
    have hsplit : p.take (payload+(encodeBacklen payload).length)=
        p.take payload++(p.drop payload).take (encodeBacklen payload).length := take_add
    have hsize : (p.take (payload+(encodeBacklen payload).length)).length=
        payload+(encodeBacklen payload).length := length_take_of_le (by omega)
    have hdec : decodePayload (p.take (payload+(encodeBacklen payload).length)++rest)=
        some (e,payload) := by
      rw [hsplit,append_assoc,htake]
    rw [decodeAt,hdec]
    dsimp only
    rw [if_neg (by rw [length_append,hsize]; omega),hsize]

theorem decodeInt_fits {width size : ℕ} {data : Bytes} (hw : 0 < width) (hw8 : width ≤ 8)
    (h : decodeInt width data=some (.integer n,size)) : FitsSigned 64 n := by
  rw [decodeInt] at h
  split at h
  · cases h
  have hn : toSigned (8*width) (leValue (data.take width))=n := by
    injection h with h
    injection h with h
    injection h
  have hlt := leValue_lt (data.take width)
  have hle : (256 : ℕ)^(data.take width).length ≤ 256^width :=
    Nat.pow_le_pow_right (by decide) (by rw [length_take]; omega)
  have hfit := toSigned_fits (by omega : 0 < 8*width)
    (by rw [pow_mul]; exact lt_of_lt_of_le hlt hle : leValue (data.take width) < 2^(8*width))
  have hpow : (2 : ℤ)^(8*width-1) ≤ 2^(64-1) := pow_le_pow_right₀ (by decide) (by omega)
  rw [← hn]
  unfold FitsSigned at hfit ⊢
  omega

theorem decodeData_fits {data : Bytes} (h : decodeData code data=some (.integer n,size)) :
    FitsSigned 64 n := by
  have htext : ∀ {skip len : ℕ} {rest : Bytes},decodeText skip len rest≠some (.integer n,size) := by
    intro skip len rest hdec
    unfold decodeText at hdec
    split at hdec <;> cases hdec
  rcases decodeData_forms code with
    ⟨hsmall,hform⟩ | hform | ⟨hnil,hform⟩ | ⟨hnil,hform⟩ | hform | ⟨width,hpos,hwidth,hform⟩ | hform
  · rw [hform] at h
    cases h
    unfold FitsSigned
    omega
  · exact absurd (hform _ ▸ h) htext
  · cases data with
    | nil => cases hnil.symm.trans h
    | cons low text =>
      rw [hform] at h
      cases h
      have hlow := low.toNat_lt
      have hfit := toSigned_fits (by decide : 0 < 13)
        (by omega : code%32*256+low.toNat < 2^13)
      unfold FitsSigned at hfit ⊢
      omega
  · cases data with
    | nil => cases hnil.symm.trans h
    | cons low text => exact absurd (hform _ _ ▸ h) htext
  · rw [hform] at h
    split at h
    · cases h
    · exact absurd h htext
  · exact decodeInt_fits hpos hwidth (hform _ ▸ h)
  · rw [hform] at h
    cases h

theorem decodeData_text {data text : Bytes} (h : decodeData code data=some (.string text,size)) :
    text.length < 2^32 := by
  have htext : ∀ {skip len : ℕ} {rest : Bytes},len < 2^32 →
      decodeText skip len rest=some (.string text,size) → text.length < 2^32 := by
    intro skip len rest hlen hdec
    unfold decodeText at hdec
    split at hdec
    · cases hdec
    · injection hdec with hdec
      injection hdec with hdec
      injection hdec with hdec
      rw [← hdec,length_take]
      omega
  rcases decodeData_forms code with
    ⟨-,hform⟩ | hform | ⟨hnil,hform⟩ | ⟨hnil,hform⟩ | hform | ⟨width,-,-,hform⟩ | hform
  · cases hform data ▸ h
  · exact htext (by omega) (hform _ ▸ h)
  · cases data with
    | nil => cases hnil.symm.trans h
    | cons low rest => cases (hform _ _).symm.trans h
  · cases data with
    | nil => cases hnil.symm.trans h
    | cons low rest =>
      have hlow := low.toNat_lt
      exact htext (by omega) (hform _ _ ▸ h)
  · rw [hform] at h
    split at h
    · cases h
    · have hlt := leValue_lt (data.take 4)
      have hle : (256 : ℕ)^(data.take 4).length ≤ 256^4 :=
        Nat.pow_le_pow_right (by decide) (by rw [length_take]; omega)
      exact htext (by omega) h
  · rw [hform,decodeInt] at h
    split at h <;> cases h
  · rw [hform] at h
    cases h

theorem IsEntry.pos (h : IsEntry bytes element) :
    0 < bytes.length := (isEntry_of_decodeAt (h [])).1

theorem IsEntry.data (h : IsEntry bytes element) :
    ∃ code data size,decodeData code data=some (element,size) := by
  have hdec := h []
  unfold decodeAt at hdec
  cases hpay : decodePayload (bytes++[]) with
  | none =>
    rw [hpay] at hdec
    cases hdec
  | some found =>
    rw [hpay] at hdec
    dsimp only at hdec
    split at hdec
    · cases hdec
    · injection hdec with hdec
      have helem : found.1=element := congrArg Prod.fst hdec
      cases hb : bytes++[] with
      | nil =>
        rw [hb] at hpay
        cases hpay
      | cons encoding data =>
        rw [hb,decodePayload] at hpay
        exact ⟨encoding.toNat,data,found.2,hpay.trans (by rw [← helem])⟩

theorem IsEntry.fits (h : IsEntry bytes (.integer n)) :
    FitsSigned 64 n := by
  obtain ⟨code,data,size,hdec⟩ := h.data
  exact decodeData_fits hdec

theorem IsEntry.text_lt {bytes text : Bytes} (h : IsEntry bytes (.string text)) :
    text.length < 2^32 := by
  obtain ⟨code,data,size,hdec⟩ := h.data
  exact decodeData_text hdec

theorem IsEntry.toString_lt (h : IsEntry bytes element) :
    element.toString.length < 2^32 := by
  cases element with
  | string s => exact h.text_lt
  | integer n =>
    obtain ⟨hlow,hhigh⟩ := h.fits
    have hlen := natDecimal_length (by decide : 0 < 19) (by omega : n.natAbs < 10^19)
    show (intDecimal n).length < 2^32
    unfold intDecimal
    split
    · rw [length_cons]
      omega
    · omega

theorem IsEntry.atEntry (h : IsEntry bytes element) (rest : Bytes) :
    atEntry (bytes++rest)=true := by
  have hdec := h rest
  cases hb : bytes++rest with
  | nil =>
    rw [hb] at hdec
    cases hdec
  | cons b tail =>
    rw [hb] at hdec
    by_cases heof : b=eof
    · rw [heof] at hdec
      exact absurd hdec (by simp [decodeAt,decodePayload,eof,decodeData])
    · exact bne_iff_ne.mpr heof

end Listpack

end Mnemos

/-! ## Listpacks as sequences of elements -/

namespace Mnemos.Listpack

open List

def layout (stored : ℕ) (raws : List Bytes) : Listpack :=
  ⟨leBytes 4 (7+raws.flatten.length)++(leBytes 2 stored++(raws.flatten++[eof]))⟩

/-- The listpack holds this sequence; the stored count is exact unless saturated. -/
def Holds (lp : Listpack) (es : List Element) : Prop :=
  ∃ stored raws, lp=layout stored raws ∧ Forall₂ IsEntry raws es ∧
    stored ≤ maxInlineCount ∧ (stored < maxInlineCount → stored=es.length)

def HoldsBy (R : Bytes → Element → Prop) (lp : Listpack) (es : List Element) : Prop :=
  ∃ stored raws, lp=layout stored raws ∧ Forall₂ R raws es ∧
    stored ≤ maxInlineCount ∧ (stored < maxInlineCount → stored=es.length)

variable {es : List Element} {raws : List Bytes} {fuel : ℕ}

theorem HoldsBy.holds {R : Bytes → Element → Prop} {lp : Listpack} (h : HoldsBy R lp es)
    (hR : ∀ {raw e},R raw e → IsEntry raw e) : Holds lp es := by
  obtain ⟨stored,raws,hlp,hentries,hmax,hcount⟩ := h
  exact ⟨stored,raws,hlp,hentries.imp fun _ _ => hR,hmax,hcount⟩

variable (stored : ℕ)

theorem layout_length (raws : List Bytes) :
    (layout stored raws).buffer.length=7+raws.flatten.length := by
  simp only [layout,length_append,leBytes_length,length_singleton]
  omega

theorem layout_buffer (raws : List Bytes) : (layout stored raws).buffer=
    leBytes 4 (7+raws.flatten.length)++leBytes 2 stored++raws.flatten++[eof] := by
  simp only [layout,append_assoc]

theorem headerSize_eq (n stored : ℕ) : headerSize=(leBytes 4 n++leBytes 2 stored).length := by
  rw [length_append,leBytes_length,leBytes_length,headerSize]

theorem layout_drop_header (raws : List Bytes) :
    (layout stored raws).buffer.drop headerSize=raws.flatten++[eof] := by
  rw [layout,headerSize,show 6=4+2 by rfl,← drop_drop,drop_left' (leBytes_length 4 _),
    drop_left' (leBytes_length 2 _)]

theorem layout_drop (before after : List Bytes) :
    (layout stored (before++after)).buffer.drop (headerSize+before.flatten.length)=
      after.flatten++[eof] := by
  rw [← drop_drop,layout_drop_header,flatten_append,append_assoc,drop_left]

theorem layout_storedCount {stored : ℕ} (h : stored ≤ maxInlineCount) (raws : List Bytes) :
    (layout stored raws).storedCount=stored := by
  rw [storedCount,layout,drop_left' (leBytes_length 4 _),take_left' (leBytes_length 2 _),
    leValue_leBytes_of_lt (by unfold maxInlineCount at h; omega)]

theorem layout_setNumElements (value stored : ℕ) (raws : List Bytes) :
    setNumElements value (layout stored raws)=layout (min value maxInlineCount) raws := by
  rw [setNumElements,layout_drop_header]
  simp only [layout]
  rw [take_left' (leBytes_length 4 _),append_assoc]

theorem layout_splice (before old new after : List Bytes) {entries : Bytes}
    {offset finish : ℕ} (hnew : entries=new.flatten)
    (hoffset : offset=headerSize+before.flatten.length)
    (hfinish : finish=offset+old.flatten.length) :
    (let buffer := (layout stored (before++(old++after))).buffer
    let updated := buffer.take offset++entries++buffer.drop finish
    setTotalBytes updated.length ⟨updated⟩)=layout stored (before++(new++after)) := by
  have htail : (layout stored (before++(old++after))).buffer.drop finish=after.flatten++[eof] := by
    rw [hfinish,← drop_drop,hoffset,layout_drop,flatten_append,append_assoc,
      drop_left]
  have hhead : (layout stored (before++(old++after))).buffer.take offset=
      leBytes 4 (7+(before++(old++after)).flatten.length)++(leBytes 2 stored++before.flatten) := by
    have hlen : (leBytes 4 (7+(before++(old++after)).flatten.length)++
        (leBytes 2 stored++before.flatten)).length=offset := by
      simp only [length_append,leBytes_length,hoffset,headerSize]
      omega
    rw [layout,flatten_append,append_assoc,← append_assoc (leBytes 2 stored),
      ← append_assoc (leBytes 4 _),take_left' (by rw [← flatten_append]; exact hlen)]
  dsimp only
  rw [htail,hhead,setTotalBytes,hnew]
  simp only [layout,append_assoc]
  rw [drop_left' (leBytes_length 4 _)]
  simp only [flatten_append,length_append,leBytes_length,append_assoc,
    length_singleton]
  congr 2
  congr 1
  omega

theorem layout_erase (before old after : List Bytes) :
    (let offset := headerSize+before.flatten.length
    let buffer := (layout stored (before++(old++after))).buffer
    let updated := buffer.take offset++buffer.drop (offset+old.flatten.length)
    setTotalBytes updated.length ⟨updated⟩)=layout stored (before++after) := by
  have h := layout_splice stored before old [] after flatten_nil.symm rfl rfl
  dsimp only at h ⊢
  rwa [append_nil] at h

theorem elementsFrom_flatten (h : Forall₂ IsEntry raws es) (hfuel : raws.length < fuel) :
    elementsFrom fuel (raws.flatten++[eof])=es := by
  induction h generalizing fuel with
  | nil =>
    cases fuel with
    | zero => omega
    | succ fuel => rfl
  | cons hentry hrest ih =>
    rename_i raw e raws es
    cases fuel with
    | zero => omega
    | succ fuel =>
      rw [length_cons] at hfuel
      rw [elementsFrom,flatten_cons,append_assoc,if_pos (hentry.atEntry _),hentry]
      dsimp only
      rw [drop_left,ih (by omega)]

theorem offsetFrom_flatten (h : Forall₂ IsEntry raws es) (hfuel : raws.length < fuel)
    (offset index : ℕ) :
    offsetFrom fuel (raws.flatten++[eof]) offset index=
      if index < raws.length then some (offset+(raws.take index).flatten.length) else none := by
  induction h generalizing fuel offset index with
  | nil =>
    cases fuel with
    | zero => omega
    | succ fuel => rfl
  | cons hentry hrest ih =>
    rename_i raw e raws es
    cases fuel with
    | zero => omega
    | succ fuel =>
      rw [length_cons] at hfuel
      cases index with
      | zero =>
        rw [offsetFrom,flatten_cons,append_assoc,if_pos (hentry.atEntry _)]
        rfl
      | succ index =>
        rw [offsetFrom,flatten_cons,append_assoc,if_pos (hentry.atEntry _),hentry]
        dsimp only
        rw [drop_left,ih (by omega)]
        simp only [length_cons,Nat.add_lt_add_iff_right,take_succ_cons,
          flatten_cons,length_append,Nat.add_assoc]

def findIn (element : Element) (start step : ℕ) : List Element → ℕ → Option ℕ
  | [],_ => none
  | e::es,index =>
    if start ≤ index && (index-start)%step==0 && e==element then some index
    else findIn element start step es (index+1)

theorem findFrom_flatten (h : Forall₂ IsEntry raws es) (hfuel : raws.length < fuel)
    (value : Bytes) (start step index : ℕ) :
    findFrom (stringToInt64 value) value start step fuel (raws.flatten++[eof]) index=
      findIn (elementOf value) start step es index := by
  induction h generalizing fuel index with
  | nil =>
    cases fuel with
    | zero => omega
    | succ fuel => rfl
  | cons hentry hrest ih =>
    rename_i raw e raws es
    have hmatch : matchesNeedle (stringToInt64 value) value e=(e==elementOf value) := by
      rw [Bool.eq_iff_iff,matchesNeedle_iff,beq_iff_eq]
    cases fuel with
    | zero => omega
    | succ fuel =>
      rw [length_cons] at hfuel
      rw [findFrom,flatten_cons,append_assoc,if_pos (hentry.atEntry _),hentry]
      dsimp only
      rw [drop_left,ih (by omega),hmatch,findIn]

theorem spanFrom_flatten (h : Forall₂ IsEntry raws es) (count : ℕ) :
    spanFrom count (raws.flatten++[eof])=
      if count ≤ raws.length then some (raws.take count).flatten.length else none := by
  induction h generalizing count with
  | nil =>
    cases count with
    | zero => rfl
    | succ count => rfl
  | cons hentry hrest ih =>
    rename_i raw e raws es
    cases count with
    | zero => rfl
    | succ count =>
      rw [spanFrom,flatten_cons,append_assoc,if_pos (hentry.atEntry _),hentry]
      dsimp only
      rw [drop_left,ih]
      simp only [length_cons,Nat.add_le_add_iff_right,take_succ_cons,flatten_cons,
        length_append]
      split <;> rfl

theorem validateFrom_flatten (h : Forall₂ IsEntry raws es) (hfuel : raws.length < fuel)
    (counted : ℕ) :
    validateFrom fuel (raws.flatten++[eof]) counted=some (counted+es.length,[eof]) := by
  induction h generalizing fuel counted with
  | nil =>
    cases fuel with
    | zero => omega
    | succ fuel => rfl
  | cons hentry hrest ih =>
    rename_i raw e raws es
    cases fuel with
    | zero => omega
    | succ fuel =>
      rw [length_cons] at hfuel
      rw [validateFrom,flatten_cons,append_assoc,if_pos (hentry.atEntry _),hentry]
      dsimp only
      rw [drop_left,ih (by omega),length_cons]
      congr 2
      omega

theorem entries_of_validateFrom {fuel counted total : ℕ} {bytes rest : Bytes}
    (h : validateFrom fuel bytes counted=some (total,rest)) :
    ∃ raws es, Forall₂ IsEntry raws es ∧ bytes=raws.flatten++rest ∧
      total=counted+es.length ∧ atEntry rest=false := by
  induction fuel generalizing bytes counted with
  | zero => cases h
  | succ fuel ih =>
    rw [validateFrom] at h
    split at h
    · cases hdec : decodeAt bytes with
      | none =>
        rw [hdec] at h
        cases h
      | some found =>
        obtain ⟨e,size⟩ := found
        rw [hdec] at h
        obtain ⟨raws,es,hentries,hsplit,htotal,hrest⟩ := ih h
        obtain ⟨hpos,hle,hentry⟩ := isEntry_of_decodeAt hdec
        refine ⟨bytes.take size::raws,e::es,.cons hentry hentries,?_,?_,hrest⟩
        · rw [flatten_cons,append_assoc,← hsplit,take_append_drop]
        · rw [length_cons]
          omega
    · rename_i hend
      obtain ⟨rfl,rfl⟩ := Prod.mk.inj (Option.some.inj h)
      exact ⟨[],[],.nil,rfl,rfl,Bool.eq_false_of_not_eq_true hend⟩

theorem length_le_flatten (h : Forall₂ IsEntry raws es) : raws.length ≤ raws.flatten.length := by
  induction h with
  | nil => exact le_rfl
  | cons hentry hrest ih =>
    have hpos := hentry.pos
    rw [length_cons,flatten_cons,length_append]
    omega

theorem holds_empty : Holds empty [] :=
  ⟨0,[],rfl,.nil,Nat.zero_le _,fun _ => rfl⟩

section Sequence

variable {lp : Listpack} {es : List Element}

variable {raws : List Bytes} {value : Bytes} {index : ℕ}

theorem walk_fuel {stored : ℕ} (h : Forall₂ IsEntry raws es) :
    raws.length < (layout stored raws).buffer.length := by
  have hle := length_le_flatten h
  rw [layout_length]
  omega

theorem Holds.elements (h : Holds lp es) : lp.elements=es := by
  obtain ⟨stored,raws,rfl,hentries,-,-⟩ := h
  rw [Listpack.elements,layout_drop_header,elementsFrom_flatten hentries (walk_fuel hentries)]

theorem Holds.toStrings (h : Holds lp es) : lp.toStrings=es.map Element.toString := by
  rw [Listpack.toStrings,h.elements]

theorem Holds.entry (h : Holds lp es) {e : Element} (he : e∈es) : ∃ raw,IsEntry raw e := by
  obtain ⟨stored,raws,-,hentries,-,-⟩ := h
  obtain ⟨i,hi,rfl⟩ := getElem_of_mem he
  have hlen := hentries.length_eq
  exact ⟨_,hentries.get (by omega) hi⟩

theorem Holds.text_lt {ms : List Bytes} (h : Holds lp (ms.map elementOf)) {m : Bytes} (hm : m∈ms) :
    m.length < 2^32 := by
  obtain ⟨raw,hraw⟩ := h.entry (mem_map_of_mem hm)
  have hlt := hraw.toString_lt
  rwa [toString_elementOf] at hlt

theorem get_toString_lt {lp : Listpack} {e : Element} (h : lp.get index=some e) :
    e.toString.length < 2^32 := by
  unfold Listpack.get at h
  split at h
  · cases h
  · obtain ⟨⟨element,size⟩,hdecode,rfl⟩ := Option.map_eq_some_iff.mp h
    exact (isEntry_of_decodeAt hdecode).2.2.toString_lt

theorem Holds.numElements (h : Holds lp es) : lp.numElements=es.length := by
  have helements := h.elements
  obtain ⟨stored,raws,rfl,hentries,hmax,hcount⟩ := h
  rw [Listpack.numElements,layout_storedCount hmax,helements]
  split
  · exact hcount ‹_›
  · rfl

theorem layout_offsetOf {stored : ℕ} (h : Forall₂ IsEntry raws es) (index : ℕ) :
    (layout stored raws).offsetOf index=
      if index < es.length then some (headerSize+(raws.take index).flatten.length) else none := by
  rw [offsetOf,layout_drop_header,offsetFrom_flatten h (walk_fuel h),h.length_eq]

theorem entries_split {R : Bytes → Element → Prop} (h : Forall₂ R raws es)
    (hindex : index < es.length) :
    ∃ before raw after,raws=before++([raw]++after) ∧ before=raws.take index ∧
      Forall₂ R before (es.take index) ∧ R raw es[index] ∧
      Forall₂ R after (es.drop (index+1)) := by
  have hlen := h.length_eq
  have hraw : index < raws.length := by omega
  refine ⟨raws.take index,raws[index],raws.drop (index+1),?_,rfl,forall₂_take index h,
    h.get hraw hindex,forall₂_drop (index+1) h⟩
  rw [singleton_append,getElem_cons_drop,take_append_drop]

theorem Holds.get (h : Holds lp es) (index : ℕ) : lp.get index=es[index]? := by
  obtain ⟨stored,raws,rfl,hentries,-,-⟩ := h
  rw [Listpack.get,layout_offsetOf hentries]
  split
  · rename_i hnone
    split at hnone
    · cases hnone
    · rw [getElem?_eq_none (by omega)]
  · rename_i offset hsome
    split at hsome
    · rename_i hlt
      obtain ⟨before,raw,after,hraws,hbefore,-,hentry,-⟩ := entries_split hentries hlt
      rw [← Option.some.inj hsome,← hbefore,hraws,layout_drop,singleton_append,
        flatten_cons,append_assoc,hentry,getElem?_eq_getElem hlt]
      rfl
    · cases hsome

theorem Holds.find (h : Holds lp es) (value : Bytes) (start step : ℕ) :
    lp.find value start step=findIn (elementOf value) start step es 0 := by
  obtain ⟨stored,raws,rfl,hentries,-,-⟩ := h
  rw [Listpack.find,layout_drop_header,findFrom_flatten hentries (walk_fuel hentries)]

section Kinds

variable {R : Bytes → Element → Prop}

theorem holdsBy_spliceIn {stored : ℕ} {before after : List Bytes} {es₁ es₂ : List Element}
    {raw : Bytes} {e : Element} (h₁ : Forall₂ R before es₁)
    (h₂ : Forall₂ R after es₂) (hraw : R raw e) (hmax : stored ≤ maxInlineCount)
    (hcount : stored < maxInlineCount → stored=(es₁++es₂).length) :
    HoldsBy R (countInserted (spliceIn (headerSize+before.flatten.length) raw
      (layout stored (before++after)))) (es₁++e::es₂) := by
  have hone : raw=[raw].flatten := (append_nil raw).symm
  have hlayout : spliceIn (headerSize+before.flatten.length) raw (layout stored (before++after))=
      layout stored (before++([raw]++after)) := layout_splice stored before [] [raw] after hone rfl rfl
  have hentries : Forall₂ R (before++([raw]++after)) (es₁++e::es₂) :=
    rel_append h₁ (.cons hraw h₂)
  rw [countInserted,hlayout,layout_storedCount hmax]
  split
  · rename_i hlt
    rw [layout_setNumElements]
    refine ⟨_,_,rfl,hentries,Nat.min_le_right _ _,fun hlt' => ?_⟩
    have hc := hcount hlt
    rw [length_append] at hc ⊢
    rw [length_cons]
    omega
  · exact ⟨_,_,rfl,hentries,hmax,fun hlt => absurd hlt ‹_›⟩

theorem HoldsBy.append_entry {raw : Bytes} {e : Element} (h : HoldsBy R lp es) (hraw : R raw e) :
    HoldsBy R (countInserted (spliceIn (lp.buffer.length-1) raw lp)) (es++[e]) := by
  obtain ⟨stored,raws,rfl,hentries,hmax,hcount⟩ := h
  have hoffset : (layout stored raws).buffer.length-1=headerSize+raws.flatten.length := by
    rw [layout_length,headerSize]
    omega
  have hins := holdsBy_spliceIn hentries .nil hraw hmax (fun hlt => by
    rw [append_nil]
    exact hcount hlt)
  rw [append_nil] at hins
  rw [hoffset]
  exact hins

variable (hR : ∀ {raw e},R raw e → IsEntry raw e) {value : Bytes} {index : ℕ}

include hR

theorem HoldsBy.insertAt (h : HoldsBy R lp es) (hvalue : R (buildEntry value) (elementOf value))
    (hindex : index ≤ es.length) :
    ∃ lp',lp.insertAt index value=some lp' ∧
      HoldsBy R lp' (es.take index++elementOf value::es.drop index) := by
  rw [Listpack.insertAt,(h.holds hR).numElements]
  by_cases hend : index=es.length
  · rw [if_pos hend]
    refine ⟨_,rfl,?_⟩
    rw [hend,take_length,drop_length]
    exact h.append_entry hvalue
  · obtain ⟨stored,raws,rfl,hentries,hmax,hcount⟩ := h
    rw [if_neg hend,layout_offsetOf (hentries.imp fun _ _ => hR),if_pos (by omega)]
    refine ⟨_,rfl,?_⟩
    have hins := holdsBy_spliceIn (forall₂_take index hentries)
      (forall₂_drop index hentries) hvalue hmax (fun hlt => by
        rw [take_append_drop]
        exact hcount hlt)
    rwa [take_append_drop] at hins

theorem HoldsBy.replaceAt (h : HoldsBy R lp es) (hvalue : R (buildEntry value) (elementOf value))
    (hindex : index < es.length) :
    ∃ lp',lp.replaceAt index value=some lp' ∧ HoldsBy R lp' (es.set index (elementOf value)) := by
  obtain ⟨stored,raws,rfl,hentries,hmax,hcount⟩ := h
  obtain ⟨before,raw,after,hraws,hbefore,h₁,hentry,h₂⟩ := entries_split hentries hindex
  have hraw : (layout stored raws).buffer.drop (headerSize+before.flatten.length)=
      raw++(after.flatten++[eof]) := by
    rw [hraws,layout_drop,singleton_append,flatten_cons,append_assoc]
  rw [Listpack.replaceAt,layout_offsetOf (hentries.imp fun _ _ => hR),if_pos hindex,← hbefore]
  dsimp only
  rw [hraw,hR hentry]
  refine ⟨_,rfl,stored,before++([buildEntry value]++after),?_,?_,hmax,fun hlt => ?_⟩
  · rw [hraws]
    exact layout_splice stored before [raw] [buildEntry value] after (append_nil _).symm rfl
      (by rw [flatten_cons,flatten_nil,append_nil])
  · rw [set_eq_take_append_cons_drop,if_pos hindex]
    exact rel_append h₁ (.cons hvalue h₂)
  · rw [length_set]
    exact hcount hlt

theorem HoldsBy.eraseRange {count : ℕ} (h : HoldsBy R lp es) (hpos : 0 < count)
    (hrange : index+count ≤ es.length) :
    ∃ lp',lp.eraseRange index count=some lp' ∧
      HoldsBy R lp' (es.take index++es.drop (index+count)) := by
  obtain ⟨stored,raws,rfl,hentries,hmax,hcount⟩ := h
  have hlen := hentries.length_eq
  have hraws : raws=raws.take index++((raws.drop index).take count++raws.drop (index+count)) := by
    rw [← drop_drop,take_append_drop,take_append_drop]
  have hkept : Forall₂ R (raws.take index++raws.drop (index+count))
      (es.take index++es.drop (index+count)) :=
    rel_append (forall₂_take index hentries) (forall₂_drop (index+count) hentries)
  have hsound : Forall₂ IsEntry raws es := hentries.imp fun _ _ => hR
  have hdrop : (layout stored raws).buffer.drop (headerSize+(raws.take index).flatten.length)=
      (raws.drop index).flatten++[eof] := by
    have := layout_drop stored (raws.take index) (raws.drop index)
    rwa [take_append_drop] at this
  have herase := layout_erase stored (raws.take index) ((raws.drop index).take count)
    (raws.drop (index+count))
  rw [← hraws] at herase
  rw [Listpack.eraseRange,if_neg (by omega),layout_offsetOf hsound,if_pos (by omega)]
  dsimp only
  rw [hdrop,spanFrom_flatten (forall₂_drop index hsound),
    if_pos (by rw [length_drop]; omega)]
  dsimp only
  rw [herase,layout_storedCount hmax]
  have hkeptlen : (es.take index++es.drop (index+count)).length=es.length-count := by
    rw [length_append,length_take,length_drop]
    omega
  split
  · rename_i hlt
    refine ⟨_,rfl,?_⟩
    rw [layout_setNumElements]
    refine ⟨_,_,rfl,hkept,Nat.min_le_right _ _,fun hlt' => ?_⟩
    have hc := hcount hlt
    rw [hkeptlen]
    omega
  · rename_i hsat
    have hholds : Holds (layout stored (raws.take index++raws.drop (index+count)))
        (es.take index++es.drop (index+count)) :=
      ⟨_,_,rfl,hkept.imp fun _ _ => hR,hmax,fun hlt => absurd hlt hsat⟩
    refine ⟨_,rfl,?_⟩
    rw [hholds.numElements,layout_setNumElements]
    exact ⟨_,_,rfl,hkept,Nat.min_le_right _ _,fun hlt' => by omega⟩

end Kinds

theorem Holds.append (h : Holds lp es) (hsize : value.length < 2^32) :
    Holds (lp.append value) (es++[elementOf value]) :=
  HoldsBy.append_entry h (isEntry_buildEntry hsize)

theorem Holds.appendInteger {value : ℤ} (h : Holds lp es) (hfits : FitsSigned 64 value) :
    Holds (lp.appendInteger value) (es++[.integer value]) :=
  HoldsBy.append_entry h (isEntry_buildIntegerEntry hfits)

theorem Holds.insertAt (h : Holds lp es) (hsize : value.length < 2^32)
    (hindex : index ≤ es.length) :
    ∃ lp',lp.insertAt index value=some lp' ∧
      Holds lp' (es.take index++elementOf value::es.drop index) :=
  HoldsBy.insertAt id h (isEntry_buildEntry hsize) hindex

theorem Holds.replaceAt (h : Holds lp es) (hsize : value.length < 2^32)
    (hindex : index < es.length) :
    ∃ lp',lp.replaceAt index value=some lp' ∧ Holds lp' (es.set index (elementOf value)) :=
  HoldsBy.replaceAt id h (isEntry_buildEntry hsize) hindex

theorem Holds.eraseRange {index count : ℕ} (h : Holds lp es) (hpos : 0 < count)
    (hrange : index+count ≤ es.length) :
    ∃ lp',lp.eraseRange index count=some lp' ∧
      Holds lp' (es.take index++es.drop (index+count)) :=
  HoldsBy.eraseRange id h hpos hrange

theorem Holds.fromBytes (h : Holds lp es) (hsize : lp.totalBytes < 2^32) :
    fromBytes lp.buffer=some lp := by
  obtain ⟨stored,raws,rfl,hentries,hmax,hcount⟩ := h
  rw [totalBytes,layout_length] at hsize
  have hdeclared : leValue ((layout stored raws).buffer.take 4)=7+raws.flatten.length := by
    rw [layout,take_left' (leBytes_length 4 _),leValue_leBytes_of_lt (by omega)]
  have hlast : (layout stored raws).buffer.getLast?=some eof := by
    rw [layout,← append_assoc,← append_assoc,getLast?_concat]
  rw [Listpack.fromBytes,if_neg (by rw [layout_length,headerSize]; omega),
    if_neg (by rw [hdeclared,layout_length]; exact not_not_intro rfl),
    if_neg (by rw [hlast]; exact not_not_intro rfl),layout_drop_header,
    validateFrom_flatten hentries (walk_fuel hentries)]
  dsimp only
  rw [if_neg (by decide)]
  have hstored : (⟨(layout stored raws).buffer⟩ : Listpack).storedCount=stored :=
    layout_storedCount hmax raws
  rw [hstored,if_neg]
  rw [Bool.and_eq_true,decide_eq_true_iff,bne_iff_ne]
  rintro ⟨hlt,hne⟩
  exact hne (by rw [hcount hlt,Nat.zero_add])

theorem holds_of_fromBytes {bytes : Bytes} (h : Listpack.fromBytes bytes=some lp) :
    lp.buffer=bytes ∧ ∃ es,Holds lp es := by
  rw [Listpack.fromBytes] at h
  split at h
  · cases h
  rename_i hlen
  split at h
  · cases h
  rename_i hdeclared
  split at h
  · cases h
  rename_i hlast
  cases hwalk : validateFrom bytes.length (bytes.drop headerSize) 0 with
  | none =>
    rw [hwalk] at h
    cases h
  | some found =>
    obtain ⟨counted,rest⟩ := found
    rw [hwalk] at h
    dsimp only at h
    split at h
    · cases h
    rename_i hrest
    split at h
    · cases h
    rename_i hstored
    have hlp := Option.some.inj h
    subst hlp
    obtain ⟨raws,es,hentries,hsplit,htotal,-⟩ := entries_of_validateFrom hwalk
    rw [headerSize] at hlen hsplit
    refine ⟨rfl,es,leValue ((bytes.drop 4).take 2),raws,?_,hentries,?_,fun hlt => ?_⟩
    · have hone : rest=[eof] := by
        obtain ⟨b,rfl⟩ := length_eq_one_iff.mp (not_not.mp hrest)
        have hb : bytes.getLast?=some b := by
          rw [← take_append_drop 6 bytes,hsplit,← append_assoc,getLast?_concat]
        rw [not_not.mp hlast] at hb
        rw [Option.some.inj hb]
      have htake4 : (bytes.take 4).length=4 := length_take_of_le (by omega)
      have htake2 : ((bytes.drop 4).take 2).length=2 :=
        length_take_of_le (by rw [length_drop]; omega)
      have hsize : bytes.length=7+raws.flatten.length := by
        have hl := congrArg List.length hsplit
        rw [hone,length_drop,length_append,length_singleton] at hl
        omega
      have h4 := leBytes_leValue (bytes.take 4)
      have h2 := leBytes_leValue ((bytes.drop 4).take 2)
      rw [htake4,not_not.mp hdeclared,hsize] at h4
      rw [htake2] at h2
      rw [layout,h4,h2,← hone,← hsplit,show bytes.drop 6=(bytes.drop 4).drop 2 by
        rw [drop_drop],take_append_drop,take_append_drop]
    · have hlt := leValue_lt ((bytes.drop 4).take 2)
      have hle : (256 : ℕ)^((bytes.drop 4).take 2).length ≤ 256^2 :=
        Nat.pow_le_pow_right (by decide) (by rw [length_take]; omega)
      unfold maxInlineCount
      omega
    · rw [Bool.and_eq_true,decide_eq_true_iff,bne_iff_ne,not_and,not_not] at hstored
      have hc : (⟨bytes⟩ : Listpack).storedCount=counted := hstored hlt
      rw [htotal,Nat.zero_add] at hc
      exact hc

end Sequence

end Mnemos.Listpack
