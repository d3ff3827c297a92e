import Mnemos.Double

/-!
# JSON values

The values that the tools take and return, and the text of a value. Objects
keep the order in which their keys were first set.
-/

namespace Mnemos

inductive Json where
  | null
  | boolean (b : Bool)
  | number (d : Double)
  | string (s : Bytes)
  | array (elements : List Json)
  | object (members : List (Bytes×Json))

def kMaxJsonDepth : ℕ := 64

section Utf8

def utf8Lead (c : UInt8) : Option (ℕ×ℕ) :=
  if c &&& 0xE0=0xC0 then some (2,(c &&& 0x1F).toNat)
  else if c &&& 0xF0=0xE0 then some (3,(c &&& 0x0F).toNat)
  else if c &&& 0xF8=0xF0 then some (4,(c &&& 0x07).toNat)
  else none

def codePointOk (len cp : ℕ) : Bool :=
  !(len==2 && cp < 0x80) && !(len==3 && cp < 0x800) && !(len==4 && cp < 0x10000) &&
    cp ≤ 0x10FFFF && !(0xD800 ≤ cp && cp ≤ 0xDFFF)

/-- Actual `utf8SequenceLength` at the first byte; zero when no sequence starts there. -/
def utf8SequenceLength : Bytes → ℕ
  | [] => 0
  | c::rest =>
    if c < 0x80 then 1
    else
      match utf8Lead c with
      | none => 0
      | some (len,bits) =>
        let tail := rest.take (len-1)
        if tail.length < len-1 then 0
        else if tail.any (fun b => b &&& 0xC0≠0x80) then 0
        else if codePointOk len (tail.foldl (fun cp b => cp*64+(b &&& 0x3F).toNat) bits) then len
        else 0

/-- The pieces that the loops over a text step through: sequences, and bytes that belong to
none. -/
def utf8Pieces : ℕ → Bytes → List (Bool×Bytes)
  | 0,_ => []
  | _+1,[] => []
  | fuel+1,c::rest =>
    match utf8SequenceLength (c::rest) with
    | 0 => (false,[c])::utf8Pieces fuel rest
    | len => (true,(c::rest).take len)::utf8Pieces fuel ((c::rest).drop len)

def isValidUtf8 (s : Bytes) : Bool := (utf8Pieces s.length s).all (·.1)

def replacement : Bytes := [0xEF,0xBF,0xBD]

def sanitiseUtf8 (s : Bytes) : Bytes :=
  (utf8Pieces s.length s).flatMap fun piece => if piece.1 then piece.2 else replacement

end Utf8

namespace Json

def hexByte (d : ℕ) : UInt8 := UInt8.ofNat (if d < 10 then 48+d else 87+d)

def escape : Bool×Bytes → Bytes
  | (true,[c]) =>
    if c=34 then [92,34]
    else if c=92 then [92,92]
    else if c=8 then ascii "\\b"
    else if c=12 then ascii "\\f"
    else if c=10 then ascii "\\n"
    else if c=13 then ascii "\\r"
    else if c=9 then ascii "\\t"
    else if c < 0x20 then ascii "\\u00"++[hexByte (c.toNat/16),hexByte (c.toNat%16)]
    else [c]
  | (true,piece) => piece
  | (false,_) => replacement

def escaped (s : Bytes) : Bytes := 34::(utf8Pieces s.length s).flatMap escape++[34]

def commas : List Bytes → Bytes
  | [] => []
  | [e] => e
  | e::rest => e++[44]++commas rest

section Text

variable [FloatText]

def numberText (d : Double) : Bytes :=
  if d.isNaN then ascii "\"nan\""
  else if d.eq .infinity then ascii "\"inf\""
  else if d.eq .negInfinity then ascii "\"-inf\""
  else FloatText.d2string d

mutual

def serialiseInto (depth : ℕ) (v : Json) : Bytes :=
  if kMaxJsonDepth < depth then ascii "null"
  else
    match v with
    | null => ascii "null"
    | boolean b => if b then ascii "true" else ascii "false"
    | number d => numberText d
    | string s => escaped s
    | array elements => 91::commas (serialiseElements (depth+1) elements)++[93]
    | object members => 123::commas (serialiseMembers (depth+1) members)++[125]

def serialiseElements (depth : ℕ) : List Json → List Bytes
  | [] => []
  | v::rest => serialiseInto depth v::serialiseElements depth rest

def serialiseMembers (depth : ℕ) : List (Bytes×Json) → List Bytes
  | [] => []
  | (key,v)::rest => (escaped key++58::serialiseInto depth v)::serialiseMembers depth rest

end

def serialise (v : Json) : Bytes := serialiseInto 0 v

end Text

def setMember (key : Bytes) (value : Json) : List (Bytes×Json) → List (Bytes×Json)
  | [] => [(key,value)]
  | m::rest => if m.1=key then (key,value)::rest else m::setMember key value rest

def insert (v : Json) (key : Bytes) (value : Json) : Json :=
  match v with
  | object members => object (setMember key value members)
  | v => v

def set (v : Json) (key : String) (value : Json) : Json := v.insert (ascii key) value

def find (v : Json) (key : String) : Option Json :=
  match v with
  | object members => (members.find? fun m => m.1==ascii key).map Prod.snd
  | _ => none

end Json

/-! ## Texts in UTF-8 -/

open List

def IsSequence (s : Bytes) : Prop := s≠[] ∧ utf8SequenceLength s=s.length

def sequenceTail (len bits : ℕ) (tail : Bytes) : ℕ :=
  if tail.length < len-1 then 0
  else if tail.any (fun b => b &&& 0xC0≠0x80) then 0
  else if codePointOk len (tail.foldl (fun cp b => cp*64+(b &&& 0x3F).toNat) bits) then len
  else 0

variable {c : UInt8} {len bits : ℕ}

theorem utf8SequenceLength_lead (hc : ¬c < 0x80) (hlead : utf8Lead c=some (len,bits))
    (rest : Bytes) :
    utf8SequenceLength (c::rest)=sequenceTail len bits (rest.take (len-1)) := by
  rw [utf8SequenceLength,if_neg hc,hlead]
  rfl

theorem utf8SequenceLength_none (hc : ¬c < 0x80) (hlead : utf8Lead c=none) (rest : Bytes) :
    utf8SequenceLength (c::rest)=0 := by
  rw [utf8SequenceLength,if_neg hc,hlead]

theorem utf8Lead_bounds (h : utf8Lead c=some (len,bits)) :
    2 ≤ len ∧ len ≤ 4 := by
  rw [utf8Lead] at h
  split_ifs at h <;> cases h <;> omega

theorem sequenceTail_spec {tail : Bytes} (h : sequenceTail len bits tail≠0) :
    len-1 ≤ tail.length ∧ (∀ b∈tail,b &&& 0xC0=0x80) ∧ sequenceTail len bits tail=len := by
  rw [sequenceTail] at h ⊢
  split_ifs at h ⊢ with hshort hany hok
  · exact absurd rfl h
  · exact absurd rfl h
  · refine ⟨by omega,fun b hb => ?_,rfl⟩
    by_contra hne
    exact hany (any_eq_true.mpr ⟨b,hb,by simpa using hne⟩)
  · exact absurd rfl h

theorem continuation_high : ∀ b : UInt8,b &&& 0xC0=0x80 → 0x80 ≤ b :=
  forall_byte (by decide +kernel)

theorem utf8SequenceLength_cases (s : Bytes) (h : utf8SequenceLength s≠0) :
    (∃ c rest,s=c::rest ∧ c < 0x80 ∧ utf8SequenceLength s=1) ∨
    (∃ c rest len bits,s=c::rest ∧ ¬c < 0x80 ∧ utf8Lead c=some (len,bits) ∧
      utf8SequenceLength s=len ∧ 2 ≤ len ∧ len ≤ s.length ∧
      (∀ b∈rest.take (len-1),b &&& 0xC0=0x80)) := by
  cases s with
  | nil => exact absurd rfl h
  | cons c rest =>
    by_cases hc : c < 0x80
    · refine Or.inl ⟨c,rest,rfl,hc,?_⟩
      rw [utf8SequenceLength,if_pos hc]
    · cases hlead : utf8Lead c with
      | none => exact absurd (utf8SequenceLength_none hc hlead rest) h
      | some announced =>
        have heq := utf8SequenceLength_lead hc hlead rest
        rw [heq] at h
        have hspec := sequenceTail_spec h
        have hbounds := utf8Lead_bounds hlead
        have hlength := hspec.1
        rw [length_take] at hlength
        refine Or.inr ⟨c,rest,announced.1,announced.2,rfl,hc,hlead,heq.trans hspec.2.2,
          hbounds.1,?_,hspec.2.1⟩
        rw [length_cons]
        omega

theorem utf8SequenceLength_le (s : Bytes) : utf8SequenceLength s ≤ s.length := by
  by_cases h : utf8SequenceLength s=0
  · omega
  · rcases utf8SequenceLength_cases s h with ⟨c,rest,rfl,_,hone⟩ | ⟨_,_,_,_,_,_,_,hlen,_,hle,_⟩
    · rw [hone,length_cons]
      omega
    · omega

theorem utf8SequenceLength_congr {s t : Bytes} (h : utf8SequenceLength s≠0)
    (ht : t.take (utf8SequenceLength s)=s.take (utf8SequenceLength s)) :
    utf8SequenceLength t=utf8SequenceLength s := by
  rcases utf8SequenceLength_cases s h with
    ⟨c,rest,rfl,hc,hone⟩ | ⟨c,rest,len,bits,rfl,hc,hlead,hlen,htwo,hle,_⟩
  · rw [hone] at ht ⊢
    cases t with
    | nil => cases ht
    | cons c' rest' =>
      obtain rfl : c'=c := head_eq_of_cons_eq ht
      rw [utf8SequenceLength,if_pos hc]
  · rw [hlen] at ht
    obtain ⟨k,rfl⟩ : ∃ k,len=k+1 := ⟨len-1,by omega⟩
    cases t with
    | nil => cases ht
    | cons c' rest' =>
      rw [take_succ_cons,take_succ_cons] at ht
      obtain ⟨rfl,hrest⟩ := List.cons.inj ht
      rw [utf8SequenceLength_lead hc hlead,utf8SequenceLength_lead hc hlead,
        Nat.add_sub_cancel,hrest]

theorem isSequence_take {s : Bytes} (h : utf8SequenceLength s≠0) :
    IsSequence (s.take (utf8SequenceLength s)) := by
  have hle := utf8SequenceLength_le s
  have hlength : (s.take (utf8SequenceLength s)).length=utf8SequenceLength s := by
    rw [length_take]
    omega
  refine ⟨fun hnil => h (by rw [← hlength,hnil]; rfl),?_⟩
  rw [hlength]
  exact utf8SequenceLength_congr h (by rw [take_take,Nat.min_self])

theorem IsSequence.append {s : Bytes} (h : IsSequence s) (t : Bytes) :
    utf8SequenceLength (s++t)=s.length := by
  have hne : utf8SequenceLength s≠0 := by
    rw [h.2]
    exact fun hzero => h.1 (eq_nil_of_length_eq_zero hzero)
  rw [utf8SequenceLength_congr hne (by rw [h.2,take_left,take_length]),h.2]

theorem isSequence_single (hc : c < 0x80) : IsSequence [c] :=
  ⟨cons_ne_nil c [],by rw [utf8SequenceLength,if_pos hc]; rfl⟩

section Pieces

/-- A piece of a text: a byte below 0x80, a longer sequence, or a byte of no sequence. -/
inductive IsPiece : Bool×Bytes → Prop where
  | plain {c : UInt8} (hc : c < 0x80) : IsPiece (true,[c])
  | sequence {s : Bytes} (hs : IsSequence s) (hhigh : ∀ b∈s,0x80 ≤ b) : IsPiece (true,s)
  | stray {c : UInt8} (hc : 0x80 ≤ c) : IsPiece (false,[c])

theorem isPiece_take {s : Bytes} (h : utf8SequenceLength s≠0) :
    IsPiece (true,s.take (utf8SequenceLength s)) := by
  have hsequence := isSequence_take h
  rcases utf8SequenceLength_cases s h with
    ⟨c,rest,rfl,hc,hone⟩ | ⟨c,rest,len,bits,rfl,hc,hlead,hlen,htwo,hle,htail⟩
  · rw [hone]
    exact IsPiece.plain hc
  · refine IsPiece.sequence hsequence fun b hb => ?_
    obtain ⟨k,rfl⟩ : ∃ k,len=k+1 := ⟨len-1,by omega⟩
    rw [hlen,take_succ_cons] at hb
    rcases mem_cons.mp hb with rfl | hmem
    · exact UInt8.not_lt.mp hc
    · exact continuation_high b (htail b hmem)

theorem utf8Pieces_sequence {s : Bytes} (h : utf8SequenceLength s≠0) (fuel : ℕ) :
    utf8Pieces (fuel+1) s=
      (true,s.take (utf8SequenceLength s))::utf8Pieces fuel (s.drop (utf8SequenceLength s)) := by
  cases s with
  | nil => exact absurd rfl h
  | cons c rest =>
    rw [utf8Pieces]
    obtain ⟨k,hk⟩ := Nat.exists_eq_succ_of_ne_zero h
    rw [hk]
    rfl

theorem utf8Pieces_stray {c : UInt8} {rest : Bytes} (h : utf8SequenceLength (c::rest)=0)
    (fuel : ℕ) : utf8Pieces (fuel+1) (c::rest)=(false,[c])::utf8Pieces fuel rest := by
  rw [utf8Pieces,h]
  rfl

theorem stray_high {c : UInt8} {rest : Bytes} (h : utf8SequenceLength (c::rest)=0) :
    0x80 ≤ c := by
  refine UInt8.not_lt.mp fun hc => ?_
  rw [utf8SequenceLength,if_pos hc] at h
  omega

theorem utf8Pieces_spec (fuel : ℕ) (s : Bytes) (h : s.length ≤ fuel) :
    (∀ p∈utf8Pieces fuel s,IsPiece p) ∧ (utf8Pieces fuel s).flatMap Prod.snd=s := by
  induction fuel generalizing s with
  | zero =>
    obtain rfl : s=[] := eq_nil_of_length_eq_zero (by omega)
    exact ⟨nofun,rfl⟩
  | succ fuel ih =>
    cases s with
    | nil => exact ⟨nofun,rfl⟩
    | cons c rest =>
      rw [length_cons] at h
      by_cases hlen : utf8SequenceLength (c::rest)=0
      · have hrest := ih rest (by omega)
        rw [utf8Pieces_stray hlen]
        refine ⟨forall_mem_cons.mpr ⟨IsPiece.stray (stray_high hlen),hrest.1⟩,?_⟩
        rw [flatMap_cons,hrest.2]
        rfl
      · have hdrop : ((c::rest).drop (utf8SequenceLength (c::rest))).length ≤ fuel := by
          rw [length_drop,length_cons]
          omega
        have hrest := ih _ hdrop
        rw [utf8Pieces_sequence hlen]
        refine ⟨forall_mem_cons.mpr ⟨isPiece_take hlen,hrest.1⟩,?_⟩
        rw [flatMap_cons,hrest.2,take_append_drop]

theorem utf8Pieces_append {s : Bytes} (hs : IsSequence s) (t : Bytes) (fuel : ℕ) :
    utf8Pieces (fuel+1) (s++t)=(true,s)::utf8Pieces fuel t := by
  have hlen := hs.append t
  have hne : utf8SequenceLength (s++t)≠0 := by
    rw [hlen]
    exact fun hzero => hs.1 (eq_nil_of_length_eq_zero hzero)
  rw [utf8Pieces_sequence hne,hlen,take_left,drop_left]

end Pieces

section Validity

inductive ValidText : Bytes → Prop where
  | nil : ValidText []
  | cons {s t : Bytes} (hs : IsSequence s) (ht : ValidText t) : ValidText (s++t)

theorem ValidText.append {s t : Bytes} (hs : ValidText s) (ht : ValidText t) :
    ValidText (s++t) := by
  induction hs with
  | nil => exact ht
  | cons hfirst _ ih =>
    rw [append_assoc]
    exact ValidText.cons hfirst ih

theorem IsSequence.validText {s : Bytes} (hs : IsSequence s) : ValidText s := by
  simpa using ValidText.cons hs ValidText.nil

theorem validText_flatMap {A : Type} {f : A → Bytes} {l : List A}
    (h : ∀ a∈l,ValidText (f a)) : ValidText (l.flatMap f) := by
  induction l with
  | nil => exact ValidText.nil
  | cons a rest ih =>
    rw [forall_mem_cons] at h
    rw [flatMap_cons]
    exact h.1.append (ih h.2)

theorem ValidText.pieces {s : Bytes} (hs : ValidText s) (fuel : ℕ) :
    (utf8Pieces fuel s).all (·.1)=true := by
  induction hs generalizing fuel with
  | nil => cases fuel <;> rfl
  | @cons s t hfirst _ ih =>
    cases fuel with
    | zero => rfl
    | succ fuel =>
      rw [utf8Pieces_append hfirst,all_cons,ih]
      rfl

theorem isValidUtf8_iff (s : Bytes) : isValidUtf8 s=true ↔ ValidText s := by
  have hspec := utf8Pieces_spec s.length s le_rfl
  constructor
  · intro h
    rw [isValidUtf8,all_eq_true] at h
    rw [← hspec.2]
    refine validText_flatMap fun p hp => ?_
    have htrue := h p hp
    cases hspec.1 p hp with
    | plain hc => exact (isSequence_single hc).validText
    | sequence hs _ => exact hs.validText
    | stray _ => cases htrue
  · exact fun h => h.pieces s.length

theorem sanitiseUtf8_eq {s : Bytes} (h : isValidUtf8 s=true) : sanitiseUtf8 s=s := by
  have hspec := utf8Pieces_spec s.length s le_rfl
  rw [isValidUtf8,all_eq_true] at h
  conv_rhs => rw [← hspec.2]
  rw [sanitiseUtf8]
  exact flatMap_congr fun p hp => if_pos (h p hp)

end Validity

end Mnemos

/-! ## Parsing JSON -/

namespace Mnemos.Json

open List

structure Fault where
  what : Bytes
  rest : Bytes
deriving DecidableEq,Repr


def fail {A : Type} (what : String) (rest : Bytes) : Except Fault (A×Bytes) :=
  .error ⟨ascii what,rest⟩

def isBlank (c : UInt8) : Bool := c=32 || c=9 || c=10 || c=13

def skipSpace (s : Bytes) : Bytes := s.dropWhile isBlank

def literal (word : String) (value : Json) (s : Bytes) : Except Fault (Json×Bytes) :=
  if s.take (ascii word).length=ascii word then .ok (value,s.drop (ascii word).length)
  else fail "invalid literal" s

section Strings

def hexValue (c : UInt8) : Option ℕ :=
  if 48 ≤ c && c ≤ 57 then some (c.toNat-48)
  else if 97 ≤ c && c ≤ 102 then some (c.toNat-87)
  else if 65 ≤ c && c ≤ 70 then some (c.toNat-55)
  else none

/-- The value of hexadecimal digits behind `high`; none at the first byte that is no digit. -/
def hexNumber (high : ℕ) : Bytes → Option ℕ
  | [] => some high
  | c::rest =>
    match hexValue c with
    | none => none
    | some d => hexNumber (high*16+d) rest

def parseHex4 (s : Bytes) : Except Fault (ℕ×Bytes) :=
  if s.length < 4 then fail "truncated \\u escape" s
  else
    match hexNumber 0 (s.take 4) with
    | none => fail "bad hex digit in \\u escape" s
    | some n => .ok (n,s.drop 4)

def codepoint (cp : ℕ) : Bytes :=
  if cp < 0x80 then [UInt8.ofNat cp]
  else if cp < 0x800 then [UInt8.ofNat (0xC0+cp/64),UInt8.ofNat (0x80+cp%64)]
  else if cp < 0x10000 then
    [UInt8.ofNat (0xE0+cp/4096),UInt8.ofNat (0x80+cp/64%64),UInt8.ofNat (0x80+cp%64)]
  else
    [UInt8.ofNat (0xF0+cp/262144),UInt8.ofNat (0x80+cp/4096%64),UInt8.ofNat (0x80+cp/64%64),
      UInt8.ofNat (0x80+cp%64)]

def parseUnicode (s : Bytes) : Except Fault (Bytes×Bytes) := do
  let (cp,after) ← parseHex4 s
  if 0xD800 ≤ cp && cp ≤ 0xDBFF && after.take 2==[92,117] then
    let (low,afterLow) ← parseHex4 (after.drop 2)
    if 0xDC00 ≤ low && low ≤ 0xDFFF then
      .ok (codepoint (0x10000+(cp-0xD800)*1024+(low-0xDC00)),afterLow)
    -- no pair: the second escape is read again
    else .ok (codepoint 0xFFFD,after)
  else if 0xD800 ≤ cp && cp ≤ 0xDFFF then .ok (codepoint 0xFFFD,after)
  else .ok (codepoint cp,after)

def parseEscape (s : Bytes) : Except Fault (Bytes×Bytes) :=
  match s with
  | [] => fail "unterminated escape" []
  | esc::rest =>
    if esc=34 || esc=92 || esc=47 then .ok ([esc],rest)
    else if esc=98 then .ok ([8],rest)
    else if esc=102 then .ok ([12],rest)
    else if esc=110 then .ok ([10],rest)
    else if esc=114 then .ok ([13],rest)
    else if esc=116 then .ok ([9],rest)
    else if esc=117 then parseUnicode rest
    else fail "unknown escape" rest

/-- The loop of `parseString` behind the opening quote, with what it has read. -/
def stringLoop : ℕ → Bytes → Bytes → Except Fault (Bytes×Bytes)
  | 0,_,s => .error ⟨[],s⟩
  | _+1,_,[] => fail "unterminated string" []
  | rounds+1,out,c::rest =>
    if c=34 then .ok (out,rest)
    else if c < 0x20 then fail "control character in string" (c::rest)
    else if c≠92 then stringLoop rounds (out++[c]) rest
    else do
      let (found,rest) ← parseEscape rest
      stringLoop rounds (out++found) rest

/-- The rest of a string of which `out` was read: the loop with a round for every byte. -/
def stringFrom (out s : Bytes) : Except Fault (Bytes×Bytes) := stringLoop (s.length+1) out s

def parseString (s : Bytes) : Except Fault (Bytes×Bytes) := stringFrom [] s

end Strings

section Numbers

def skipSign : Bytes → Bytes
  | c::rest => if c=45 || c=43 then rest else c::rest
  | [] => []

def skipDigits (s : Bytes) : Bytes := s.dropWhile isDigit

def skipFraction : Bytes → Bytes
  | c::rest => if c=46 then skipDigits rest else c::rest
  | [] => []

def fractionDigits : Bytes → Bytes
  | c::rest => if c=46 then rest.takeWhile isDigit else []
  | [] => []

variable [FloatText]

def numberUpTo (s rest : Bytes) : Except Fault (Json×Bytes) :=
  .ok (.number (FloatText.strtod (s.take (s.length-rest.length))),rest)

def parseNumber (s : Bytes) : Except Fault (Json×Bytes) :=
  let unsigned := skipSign s
  let whole := skipDigits unsigned
  let mantissa := skipFraction whole
  let digits := unsigned.takeWhile isDigit≠[] || fractionDigits whole≠[]
  if !digits then fail "expected a value" mantissa
  else
    match mantissa with
    | [] => numberUpTo s []
    | c::rest =>
      if c=101 || c=69 then
        let exponent := skipSign rest
        if exponent.takeWhile isDigit=[] then fail "missing exponent digits" exponent
        else numberUpTo s (skipDigits exponent)
      else numberUpTo s (c::rest)

end Numbers

section Values

/-- What the loops do behind a value: go on at a comma, or end with the whole. -/
def behindValue (close : UInt8) (unterminated expected : String) (whole : Json)
    (again : Bytes → Except Fault (Json×Bytes)) (s : Bytes) : Except Fault (Json×Bytes) :=
  match skipSpace s with
  | [] => fail unterminated []
  | c::rest =>
    if c=44 then again rest
    else if c=close then .ok (whole,rest)
    else fail expected (c::rest)

/-- The loop of `parseArray`, with a parser for the elements. -/
def elementLoop (element : Bytes → Except Fault (Json×Bytes)) :
    ℕ → List Json → Bytes → Except Fault (Json×Bytes)
  | 0,_,s => .error ⟨[],s⟩
  | rounds+1,out,s => do
    let (v,rest) ← element (skipSpace s)
    behindValue 93 "unterminated array" "expected ',' or ']'" (.array (out++[v]))
      (elementLoop element rounds (out++[v])) rest

def elementsFrom (element : Bytes → Except Fault (Json×Bytes)) (out : List Json) (s : Bytes) :
    Except Fault (Json×Bytes) :=
  elementLoop element (s.length+1) out s

def parseArray (element : Bytes → Except Fault (Json×Bytes)) (s : Bytes) :
    Except Fault (Json×Bytes) :=
  if (skipSpace s).head?=some 93 then .ok (.array [],(skipSpace s).drop 1)
  else elementsFrom element [] (skipSpace s)

def parseKey (s : Bytes) : Except Fault (Bytes×Bytes) :=
  match skipSpace s with
  | [] => fail "expected object key" []
  | c::rest =>
    if c≠34 then fail "expected object key" (c::rest)
    else do
      let (key,rest) ← parseString rest
      match skipSpace rest with
      | [] => fail "expected ':'" []
      | c::rest => if c≠58 then fail "expected ':'" (c::rest) else .ok (key,rest)

/-- The loop of `parseObject`, with a parser for the values. -/
def memberLoop (value : Bytes → Except Fault (Json×Bytes)) :
    ℕ → List (Bytes×Json) → Bytes → Except Fault (Json×Bytes)
  | 0,_,s => .error ⟨[],s⟩
  | rounds+1,out,s => do
    let (key,rest) ← parseKey s
    let (v,rest) ← value (skipSpace rest)
    behindValue 125 "unterminated object" "expected ',' or '\x7d'"
      (.object (setMember key v out)) (memberLoop value rounds (setMember key v out)) rest

def membersFrom (value : Bytes → Except Fault (Json×Bytes)) (out : List (Bytes×Json))
    (s : Bytes) : Except Fault (Json×Bytes) :=
  memberLoop value (s.length+1) out s

def parseObject (value : Bytes → Except Fault (Json×Bytes)) (s : Bytes) :
    Except Fault (Json×Bytes) :=
  if (skipSpace s).head?=some 125 then .ok (.object [],(skipSpace s).drop 1)
  else membersFrom value [] (skipSpace s)

variable [FloatText]

/-- The levels are those still allowed. -/
def parseValue : ℕ → Bytes → Except Fault (Json×Bytes)
  | 0,s => fail "nesting too deep" s
  | _+1,[] => fail "unexpected end of input" []
  | levels+1,c::rest =>
    if c=110 then literal "null" .null (c::rest)
    else if c=116 then literal "true" (.boolean true) (c::rest)
    else if c=102 then literal "false" (.boolean false) (c::rest)
    else if c=34 then do
      let (s,rest) ← parseString rest
      .ok (.string s,rest)
    else if c=91 then parseArray (parseValue levels) rest
    else if c=123 then parseObject (parseValue levels) rest
    else parseNumber (c::rest)

def runParser (text : Bytes) : Except Fault (Json×Bytes) := do
  let (v,rest) ← parseValue (kMaxJsonDepth+1) (skipSpace text)
  match skipSpace rest with
  | [] => .ok (v,[])
  | c::rest => fail "trailing data after JSON value" (c::rest)

def parse (text : Bytes) : Except Bytes Json :=
  match runParser text with
  | .ok (v,_) => .ok v
  | .error fault =>
    .error (fault.what++ascii " at offset "++natDecimal (text.length-fault.rest.length))

end Values

section Heights

mutual

def height : Json → ℕ
  | null => 0
  | boolean _ => 0
  | number _ => 0
  | string _ => 0
  | array elements => elementHeights elements
  | object members => memberHeights members

def elementHeights : List Json → ℕ
  | [] => 0
  | v::rest => max (height v+1) (elementHeights rest)

def memberHeights : List (Bytes×Json) → ℕ
  | [] => 0
  | (_,v)::rest => max (height v+1) (memberHeights rest)

end

theorem height_array_le {elements : List Json} {n : ℕ} :
    (array elements).height ≤ n ↔ ∀ v∈elements,v.height < n := by
  rw [height]
  induction elements with
  | nil => simp [elementHeights]
  | cons v rest ih =>
    rw [elementHeights,forall_mem_cons,← ih]
    omega

theorem height_object_le {members : List (Bytes×Json)} {n : ℕ} :
    (object members).height ≤ n ↔ ∀ m∈members,m.2.height < n := by
  rw [height]
  induction members with
  | nil => simp [memberHeights]
  | cons m rest ih =>
    rw [memberHeights,forall_mem_cons,← ih]
    omega

theorem mem_setMember {key : Bytes} {value : Json} {members : List (Bytes×Json)}
    {m : Bytes×Json} (h : m∈setMember key value members) : m=(key,value) ∨ m∈members := by
  induction members with
  | nil => exact Or.inl (mem_singleton.mp h)
  | cons first rest ih =>
    rw [setMember] at h
    split at h
    · rcases mem_cons.mp h with hnew | hold
      · exact Or.inl hnew
      · exact Or.inr (mem_cons_of_mem first hold)
    · rcases mem_cons.mp h with hfirst | hold
      · exact Or.inr (hfirst ▸ mem_cons_self)
      · exact (ih hold).imp id (mem_cons_of_mem first)

end Heights

section Results

variable {A B : Type}

/-- What holds of every result with which a step of the parser ends. -/
def Yields (P : A → Bytes → Prop) (r : Except Fault (A×Bytes)) : Prop :=
  ∀ a rest,r=.ok (a,rest) → P a rest

theorem Yields.ok {P : A → Bytes → Prop} {a : A} {rest : Bytes} (h : P a rest) :
    Yields P (.ok (a,rest)) := by
  intro b t hb
  cases hb
  exact h

theorem Yields.error {P : A → Bytes → Prop} (fault : Fault) : Yields P (.error fault) :=
  fun _ _ h => nomatch h

theorem Yields.fail {P : A → Bytes → Prop} (what : String) (rest : Bytes) :
    Yields P (Json.fail what rest) :=
  Yields.error _

variable {r : Except Fault (A×Bytes)}

theorem Yields.bind {P : A → Bytes → Prop} {Q : B → Bytes → Prop} {next : A×Bytes → Except Fault (B×Bytes)}
    (hr : Yields P r) (hnext : ∀ a rest,P a rest → Yields Q (next (a,rest))) :
    Yields Q (r >>= next) := by
  cases r with
  | error fault => exact Yields.error fault
  | ok found => exact hnext found.1 found.2 (hr found.1 found.2 rfl)

theorem Yields.mono {P Q : A → Bytes → Prop}
    (hr : Yields P r) (h : ∀ a rest,P a rest → Q a rest) : Yields Q r :=
  fun a rest hok => h a rest (hr a rest hok)

theorem Yields.ite {P : A → Bytes → Prop} {c : Prop} [Decidable c]
    {r' : Except Fault (A×Bytes)} (hr : c → Yields P r) (hr' : ¬c → Yields P r') :
    Yields P (if c then r else r') := by
  split
  · exact hr ‹c›
  · exact hr' ‹¬c›

end Results

section Consumption

variable (s : Bytes)

theorem skipSpace_length_le : (skipSpace s).length ≤ s.length :=
  (dropWhile_suffix isBlank).length_le

theorem parseHex4_yields :
    Yields (fun _ rest => rest.length+4 ≤ s.length) (parseHex4 s) := by
  refine Yields.ite (fun _ => Yields.fail _ _) fun hlong => ?_
  cases hexNumber 0 (s.take 4) with
  | none => exact Yields.fail _ _
  | some n =>
    refine Yields.ok ?_
    rw [length_drop]
    omega

theorem parseUnicode_yields :
    Yields (fun _ rest => rest.length ≤ s.length) (parseUnicode s) := by
  refine (parseHex4_yields s).bind fun cp after hafter => ?_
  refine Yields.ite (fun _ => ?_) fun _ => Yields.ite (fun _ => ?_) fun _ => ?_
  · refine (parseHex4_yields _).bind fun low afterLow hlow => ?_
    rw [length_drop] at hlow
    exact Yields.ite (fun _ => Yields.ok (by omega)) fun _ => Yields.ok (by omega)
  · exact Yields.ok (by omega)
  · exact Yields.ok (by omega)

theorem parseEscape_yields :
    Yields (fun _ rest => rest.length ≤ s.length) (parseEscape s) := by
  cases s with
  | nil => exact Yields.fail _ _
  | cons esc rest =>
    have hrest : rest.length ≤ (esc::rest).length := Nat.le_succ _
    rw [parseEscape]
    iterate 6 refine Yields.ite (fun _ => Yields.ok hrest) fun _ => ?_
    refine Yields.ite (fun _ => ?_) fun _ => Yields.fail _ _
    exact (parseUnicode_yields rest).mono fun _ _ h => h.trans hrest

theorem stringLoop_yields (rounds : ℕ) (out s : Bytes) :
    Yields (fun _ rest => rest.length ≤ s.length) (stringLoop rounds out s) := by
  induction rounds generalizing out s with
  | zero => exact Yields.error _
  | succ rounds ih =>
    cases s with
    | nil => exact Yields.fail _ _
    | cons c rest =>
      have hrest : rest.length ≤ (c::rest).length := Nat.le_succ _
      refine Yields.ite (fun _ => Yields.ok hrest) fun _ => ?_
      refine Yields.ite (fun _ => Yields.fail _ _) fun _ => ?_
      refine Yields.ite (fun _ => (ih _ rest).mono fun _ _ h => h.trans hrest) fun _ => ?_
      refine (parseEscape_yields rest).bind fun found after hafter => ?_
      exact (ih _ after).mono fun _ _ h => (h.trans hafter).trans hrest

theorem stringLoop_rounds {m n : ℕ} (out : Bytes) {s : Bytes} (hm : s.length < m)
    (hn : s.length < n) : stringLoop m out s=stringLoop n out s := by
  induction m generalizing n out s with
  | zero => omega
  | succ m ih =>
    cases n with
    | zero => omega
    | succ n =>
      cases s with
      | nil => rfl
      | cons c rest =>
        rw [length_cons] at hm hn
        rw [stringLoop,stringLoop,ih (out++[c]) (by omega) (by omega : rest.length < n)]
        have hescape : ∀ found after,parseEscape rest=.ok (found,after) →
            stringLoop m (out++found) after=stringLoop n (out++found) after := by
          intro found after hfound
          have hle := parseEscape_yields rest found after hfound
          exact ih (out++found) (by omega) (by omega)
        cases hfound : parseEscape rest with
        | error fault => rfl
        | ok found =>
          have hstep := hescape found.1 found.2 hfound
          simp only [bind,Except.bind,hstep]

theorem parseKey_yields :
    Yields (fun _ rest => rest.length ≤ s.length) (parseKey s) := by
  have hs := skipSpace_length_le s
  rw [parseKey]
  cases hskip : skipSpace s with
  | nil => exact Yields.fail _ _
  | cons c rest =>
    rw [hskip,length_cons] at hs
    refine Yields.ite (fun _ => Yields.fail _ _) fun _ => ?_
    refine (stringLoop_yields _ [] rest).bind fun key after hafter => ?_
    have hcolon := skipSpace_length_le after
    dsimp only
    cases hskip' : skipSpace after with
    | nil => exact Yields.fail _ _
    | cons c' rest' =>
      rw [hskip',length_cons] at hcolon
      exact Yields.ite (fun _ => Yields.fail _ _) fun _ => Yields.ok (by omega)

theorem literal_yields (word : String) {value : Json} (hvalue : value.height=0) (s : Bytes) :
    Yields (fun v rest => v.height=0 ∧ rest.length ≤ s.length) (literal word value s) :=
  Yields.ite (fun _ => Yields.ok ⟨hvalue,by rw [length_drop]; omega⟩)
    fun _ => Yields.fail _ _

theorem skipSign_length_le : (skipSign s).length ≤ s.length := by
  cases s with
  | nil => exact le_rfl
  | cons c rest =>
    rw [skipSign]
    split
    · exact Nat.le_succ _
    · exact le_rfl

theorem skipDigits_length_le : (skipDigits s).length ≤ s.length :=
  (dropWhile_suffix isDigit).length_le

theorem skipFraction_length_le : (skipFraction s).length ≤ s.length := by
  cases s with
  | nil => exact le_rfl
  | cons c rest =>
    rw [skipFraction]
    split
    · exact (skipDigits_length_le rest).trans (Nat.le_succ _)
    · exact le_rfl

theorem parseNumber_yields [FloatText] :
    Yields (fun v rest => v.height=0 ∧ rest.length ≤ s.length) (parseNumber s) := by
  have hsign := skipSign_length_le s
  have hwhole := skipDigits_length_le (skipSign s)
  have hmantissa := skipFraction_length_le (skipDigits (skipSign s))
  have hupto : ∀ rest : Bytes,rest.length ≤ s.length →
      Yields (fun v rest => v.height=0 ∧ rest.length ≤ s.length) (numberUpTo s rest) :=
    fun rest hrest => Yields.ok ⟨rfl,hrest⟩
  rw [parseNumber]
  refine Yields.ite (fun _ => Yields.fail _ _) fun _ => ?_
  cases hrest : skipFraction (skipDigits (skipSign s)) with
  | nil => exact hupto [] (Nat.zero_le _)
  | cons c rest =>
    rw [hrest,length_cons] at hmantissa
    refine Yields.ite (fun _ => ?_) fun _ => hupto _ (by rw [length_cons]; omega)
    have hexponent := skipSign_length_le rest
    have hdigits := skipDigits_length_le (skipSign rest)
    exact Yields.ite (fun _ => Yields.fail _ _) fun _ => hupto _ (by omega)

end Consumption

section Loops

variable {n : ℕ} {value : Bytes → Except Fault (Json×Bytes)}

/-- What a parser of the values inside another does: they are lower than `n`, and it leaves
no more than it got. -/
def Inner (n : ℕ) (value : Bytes → Except Fault (Json×Bytes)) : Prop :=
  ∀ s,Yields (fun v rest => v.height < n ∧ rest.length ≤ s.length) (value s)

/-- What stands behind a value leaves no more, and gives what holds of the whole and of
going on. -/
theorem behindValue_yields {close : UInt8} {unterminated expected : String} {whole : Json}
    {again : Bytes → Except Fault (Json×Bytes)} (hwhole : whole.height ≤ n)
    (hagain : ∀ t,Yields (fun v rest => v.height ≤ n ∧ rest.length ≤ t.length) (again t))
    (s : Bytes) :
    Yields (fun v rest => v.height ≤ n ∧ rest.length ≤ s.length)
      (behindValue close unterminated expected whole again s) := by
  have hs := skipSpace_length_le s
  rw [behindValue]
  cases hskip : skipSpace s with
  | nil => exact Yields.fail _ _
  | cons c rest =>
    rw [hskip,length_cons] at hs
    refine Yields.ite (fun _ => ?_) fun _ => Yields.ite (fun _ => ?_) fun _ => Yields.fail _ _
    · exact (hagain rest).mono fun w t h => ⟨h.1,by omega⟩
    · exact Yields.ok ⟨hwhole,by omega⟩

variable {s : Bytes}

theorem behindValue_congr {close : UInt8} {unterminated expected : String} {whole : Json}
    {again again' : Bytes → Except Fault (Json×Bytes)}
    (h : ∀ t,t.length < s.length → again t=again' t) :
    behindValue close unterminated expected whole again s=
      behindValue close unterminated expected whole again' s := by
  have hs := skipSpace_length_le s
  rw [behindValue,behindValue]
  cases hskip : skipSpace s with
  | nil => rfl
  | cons c rest =>
    rw [hskip,length_cons] at hs
    dsimp only
    rw [h rest (by omega)]

theorem elementLoop_yields (hvalue : Inner n value) (rounds : ℕ) {out : List Json}
    (hout : ∀ v∈out,v.height < n) (s : Bytes) :
    Yields (fun v rest => v.height ≤ n ∧ rest.length ≤ s.length)
      (elementLoop value rounds out s) := by
  induction rounds generalizing out s with
  | zero => exact Yields.error _
  | succ rounds ih =>
    have hs := skipSpace_length_le s
    refine (hvalue (skipSpace s)).bind fun v after hafter => ?_
    have hout' : ∀ w∈out++[v],w.height < n := by
      intro w hw
      rcases mem_append.mp hw with hold | hnew
      · exact hout w hold
      · exact mem_singleton.mp hnew ▸ hafter.1
    exact (behindValue_yields (height_array_le.mpr hout') (ih hout') after).mono
      fun w t h => ⟨h.1,h.2.trans (hafter.2.trans hs)⟩

theorem memberLoop_yields (hvalue : Inner n value) (rounds : ℕ) {out : List (Bytes×Json)}
    (hout : ∀ m∈out,m.2.height < n) (s : Bytes) :
    Yields (fun v rest => v.height ≤ n ∧ rest.length ≤ s.length)
      (memberLoop value rounds out s) := by
  induction rounds generalizing out s with
  | zero => exact Yields.error _
  | succ rounds ih =>
    refine (parseKey_yields s).bind fun key behind hbehind => ?_
    have hs := skipSpace_length_le behind
    refine (hvalue (skipSpace behind)).bind fun v after hafter => ?_
    have hout' : ∀ m∈setMember key v out,m.2.height < n := by
      intro m hm
      rcases mem_setMember hm with hnew | hold
      · exact hnew ▸ hafter.1
      · exact hout m hold
    exact (behindValue_yields (height_object_le.mpr hout') (ih hout') after).mono
      fun w t h => ⟨h.1,h.2.trans (hafter.2.trans (hs.trans hbehind))⟩

theorem elementLoop_rounds (hvalue : Inner n value) {k m : ℕ} (out : List Json)
    (hk : s.length < k) (hm : s.length < m) :
    elementLoop value k out s=elementLoop value m out s := by
  induction k generalizing m out s with
  | zero => omega
  | succ k ih =>
    cases m with
    | zero => omega
    | succ m =>
      have hs := skipSpace_length_le s
      rw [elementLoop,elementLoop]
      cases hfound : value (skipSpace s) with
      | error fault => rfl
      | ok found =>
        have hle := (hvalue (skipSpace s) found.1 found.2 hfound).2
        exact behindValue_congr fun t ht => ih (out++[found.1]) (by omega) (by omega)

theorem memberLoop_rounds (hvalue : Inner n value) {k m : ℕ} (out : List (Bytes×Json)) (hk : s.length < k) (hm : s.length < m) :
    memberLoop value k out s=memberLoop value m out s := by
  induction k generalizing m out s with
  | zero => omega
  | succ k ih =>
    cases m with
    | zero => omega
    | succ m =>
      rw [memberLoop,memberLoop]
      cases hkey : parseKey s with
      | error fault => rfl
      | ok key =>
        have hbehind := parseKey_yields s key.1 key.2 hkey
        have hs := skipSpace_length_le key.2
        simp only [bind,Except.bind]
        cases hfound : value (skipSpace key.2) with
        | error fault => rfl
        | ok found =>
          have hle := (hvalue (skipSpace key.2) found.1 found.2 hfound).2
          exact behindValue_congr fun t ht =>
            ih (setMember key.1 found.1 out) (by omega) (by omega)

theorem elementsFrom_comma {n : ℕ} {value : Bytes → Except Fault (Json×Bytes)}
    (hvalue : Inner n value) {rest : Bytes} {v : Json}
    (hfound : value (skipSpace s)=.ok (v,44::rest)) (out : List Json) :
    elementsFrom value out s=elementsFrom value (out++[v]) rest := by
  have hs := skipSpace_length_le s
  have hle := (hvalue (skipSpace s) v (44::rest) hfound).2
  rw [length_cons] at hle
  have hrounds := elementLoop_rounds hvalue (out++[v]) (by omega : rest.length < s.length)
    (Nat.lt_succ_self rest.length)
  rw [elementsFrom,elementLoop,hfound]
  exact hrounds

theorem elementsFrom_close {value : Bytes → Except Fault (Json×Bytes)} {rest : Bytes}
    {v : Json} (hfound : value (skipSpace s)=.ok (v,93::rest)) (out : List Json) :
    elementsFrom value out s=.ok (.array (out++[v]),rest) := by
  rw [elementsFrom,elementLoop,hfound]
  rfl

theorem membersFrom_comma {n : ℕ} {value : Bytes → Except Fault (Json×Bytes)}
    (hvalue : Inner n value) {behind rest key : Bytes} {v : Json}
    (hkey : parseKey s=.ok (key,behind)) (hfound : value (skipSpace behind)=.ok (v,44::rest))
    (out : List (Bytes×Json)) :
    membersFrom value out s=membersFrom value (setMember key v out) rest := by
  have hbehind := parseKey_yields s key behind hkey
  have hs := skipSpace_length_le behind
  have hle := (hvalue (skipSpace behind) v (44::rest) hfound).2
  rw [length_cons] at hle
  have hrounds := memberLoop_rounds hvalue (setMember key v out)
    (by omega : rest.length < s.length) (Nat.lt_succ_self rest.length)
  rw [membersFrom,memberLoop,hkey]
  simp only [bind,Except.bind,hfound]
  exact hrounds

theorem membersFrom_close {value : Bytes → Except Fault (Json×Bytes)}
    {behind rest key : Bytes} {v : Json} (hkey : parseKey s=.ok (key,behind))
    (hfound : value (skipSpace behind)=.ok (v,125::rest)) (out : List (Bytes×Json)) :
    membersFrom value out s=.ok (.object (setMember key v out),rest) := by
  rw [membersFrom,memberLoop,hkey]
  simp only [bind,Except.bind,hfound]
  rfl

theorem parseArray_yields (hvalue : Inner n value) (s : Bytes) :
    Yields (fun v rest => v.height ≤ n ∧ rest.length ≤ s.length) (parseArray value s) := by
  have hs := skipSpace_length_le s
  refine Yields.ite (fun _ => Yields.ok ⟨Nat.zero_le n,?_⟩) fun _ => ?_
  · rw [length_drop]
    omega
  · exact (elementLoop_yields hvalue _ (fun _ h => absurd h not_mem_nil) _).mono
      fun v rest h => ⟨h.1,h.2.trans hs⟩

theorem parseObject_yields (hvalue : Inner n value) (s : Bytes) :
    Yields (fun v rest => v.height ≤ n ∧ rest.length ≤ s.length) (parseObject value s) := by
  have hs := skipSpace_length_le s
  refine Yields.ite (fun _ => Yields.ok ⟨Nat.zero_le n,?_⟩) fun _ => ?_
  · rw [length_drop]
    omega
  · exact (memberLoop_yields hvalue _ (fun _ h => absurd h not_mem_nil) _).mono
      fun v rest h => ⟨h.1,h.2.trans hs⟩

theorem parseValue_inner [FloatText] (levels : ℕ) : Inner levels (parseValue levels) := by
  induction levels with
  | zero => exact fun s => Yields.fail _ _
  | succ levels ih =>
    intro s
    have hflat : ∀ v : Json,∀ rest : Bytes,v.height=0 ∧ rest.length ≤ s.length →
        v.height < levels+1 ∧ rest.length ≤ s.length := fun v rest h => ⟨by omega,h.2⟩
    cases s with
    | nil => exact Yields.fail _ _
    | cons c rest =>
      have hrest : rest.length ≤ (c::rest).length := Nat.le_succ _
      rw [parseValue]
      iterate 3 refine Yields.ite (fun _ => (literal_yields _ rfl _).mono hflat) fun _ => ?_
      refine Yields.ite (fun _ => ?_) fun _ => ?_
      · refine (stringLoop_yields _ [] rest).bind fun text after hafter => ?_
        exact Yields.ok ⟨Nat.succ_pos levels,hafter.trans hrest⟩
      refine Yields.ite (fun _ => ?_) fun _ => Yields.ite (fun _ => ?_) fun _ => ?_
      · exact (parseArray_yields ih rest).mono
          fun v after h => ⟨Nat.lt_succ_of_le h.1,h.2.trans hrest⟩
      · exact (parseObject_yields ih rest).mono
          fun v after h => ⟨Nat.lt_succ_of_le h.1,h.2.trans hrest⟩
      · exact (parseNumber_yields _).mono hflat

theorem parse_height [FloatText] {text : Bytes} {v : Json} (h : parse text=.ok v) :
    v.height ≤ kMaxJsonDepth := by
  have hrun : Yields (fun v _ => v.height ≤ kMaxJsonDepth) (runParser text) := by
    refine (parseValue_inner _ _).bind fun v rest hv => ?_
    dsimp only
    cases skipSpace rest with
    | nil => exact Yields.ok (Nat.le_of_lt_succ hv.1)
    | cons c rest => exact Yields.fail _ _
  rw [parse] at h
  cases hresult : runParser text with
  | error fault =>
    rw [hresult] at h
    cases h
  | ok found =>
    rw [hresult] at h
    cases h
    exact hrun found.1 found.2 hresult

end Loops

end Mnemos.Json
