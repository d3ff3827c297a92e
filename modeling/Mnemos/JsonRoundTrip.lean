import Mnemos.Json

/-!
# Writing and parsing JSON

The text of a value is valid UTF-8 without control characters, whatever bytes
the strings of the value hold.
-/

namespace Mnemos

open List

def Double.isFinite (d : Double) : Bool := d.magnitude < 0x7FF0000000000000

theorem Double.isFinite_iff (d : Double) :
    d.isFinite=true ↔ ¬d.isNaN=true ∧ ¬d.eq .infinity=true ∧ ¬d.eq .negInfinity=true := by
  have hinf : Double.infinity.isNaN=false ∧ Double.infinity.key=(2047*2^52 : ℕ) := by decide
  have hneg : Double.negInfinity.isNaN=false ∧ Double.negInfinity.key= -(2047*2^52 : ℕ) := by
    decide
  rw [Double.isFinite,decide_eq_true_iff]
  cases hnan : d.isNaN with
  | true =>
    have hlarge := of_decide_eq_true hnan
    simp only [not_true_eq_false,false_and,iff_false]
    omega
  | false =>
    have hsmall := of_decide_eq_false hnan
    rw [Double.eq_iff hnan hinf.1,Double.eq_iff hnan hneg.1,hinf.2,hneg.2,Double.key]
    simp only [Bool.false_eq_true,not_false_eq_true,true_and]
    split_ifs <;> omega

namespace Json

section Parts

mutual

def parts : Json → List Json
  | null => [null]
  | boolean b => [boolean b]
  | number d => [number d]
  | string s => [string s]
  | array elements => array elements::elementParts elements
  | object members => object members::memberParts members

def elementParts : List Json → List Json
  | [] => []
  | v::rest => parts v++elementParts rest

def memberParts : List (Bytes×Json) → List Json
  | [] => []
  | (_,v)::rest => parts v++memberParts rest

end

theorem self_mem_parts (v : Json) : v∈v.parts := by
  cases v <;> simp [parts]

theorem parts_element {elements : List Json} {v w : Json} (hv : v∈elements)
    (hw : w∈v.parts) : w∈(array elements).parts := by
  rw [parts]
  refine mem_cons_of_mem _ ?_
  induction elements with
  | nil => cases hv
  | cons first rest ih =>
    rw [elementParts]
    rcases mem_cons.mp hv with rfl | hrest
    · exact mem_append_left _ hw
    · exact mem_append_right _ (ih hrest)

theorem parts_member {members : List (Bytes×Json)} {m : Bytes×Json} {w : Json}
    (hm : m∈members) (hw : w∈m.2.parts) : w∈(object members).parts := by
  rw [parts]
  refine mem_cons_of_mem _ ?_
  induction members with
  | nil => cases hm
  | cons first rest ih =>
    rw [memberParts]
    rcases mem_cons.mp hm with rfl | hrest
    · exact mem_append_left _ hw
    · exact mem_append_right _ (ih hrest)

theorem induct {P : Json → Prop} (null : P .null) (boolean : ∀ b,P (.boolean b))
    (number : ∀ d,P (.number d)) (string : ∀ s,P (.string s))
    (array : ∀ elements,(∀ v∈elements,P v) → P (.array elements))
    (object : ∀ members : List (Bytes×Json),(∀ m∈members,P m.2) → P (.object members))
    (v : Json) : P v :=
  @Json.rec P (fun elements => ∀ v∈elements,P v) (fun members => ∀ m∈members,P m.2)
    (fun m => P m.2) null boolean number string array object
    (fun _ h => absurd h not_mem_nil)
    (fun _ _ hv hrest => forall_mem_cons.mpr ⟨hv,hrest⟩)
    (fun _ h => absurd h not_mem_nil)
    (fun _ _ hm hrest => forall_mem_cons.mpr ⟨hm,hrest⟩)
    (fun _ _ h => h) v

end Parts

section Framing

def Clean (s : Bytes) : Prop := ValidText s ∧ ∀ c∈s,0x20 ≤ c

theorem clean_nil : Clean [] := ⟨ValidText.nil,fun _ h => absurd h not_mem_nil⟩

variable {s : Bytes}

theorem Clean.append {t : Bytes} (hs : Clean s) (ht : Clean t) : Clean (s++t) :=
  ⟨hs.1.append ht.1,fun c hc => (mem_append.mp hc).elim (hs.2 c) (ht.2 c)⟩

theorem clean_single {c : UInt8} (hlow : 0x20 ≤ c) (hhigh : c < 0x80) : Clean [c] := by
  refine ⟨(isSequence_single hhigh).validText,fun b hb => ?_⟩
  rw [mem_singleton.mp hb]
  exact hlow

theorem clean_printable (h : ∀ c∈s,0x20 ≤ c ∧ c < 0x80) : Clean s := by
  induction s with
  | nil => exact clean_nil
  | cons c rest ih =>
    rw [forall_mem_cons] at h
    exact (clean_single h.1.1 h.1.2).append (ih h.2)

theorem clean_flatMap {A : Type} {f : A → Bytes} {l : List A} (h : ∀ a∈l,Clean (f a)) :
    Clean (l.flatMap f) := by
  induction l with
  | nil => exact clean_nil
  | cons a rest ih =>
    rw [forall_mem_cons] at h
    rw [flatMap_cons]
    exact h.1.append (ih h.2)

theorem clean_commas {l : List Bytes} (h : ∀ s∈l,Clean s) : Clean (commas l) := by
  induction l with
  | nil => exact clean_nil
  | cons s rest ih =>
    rw [forall_mem_cons] at h
    cases rest with
    | nil => exact h.1
    | cons t rest =>
      rw [commas]
      · exact (h.1.append (clean_single (by decide) (by decide))).append (ih h.2)
      · exact cons_ne_nil t rest

theorem high_not_control {b : UInt8} (h : 0x80 ≤ b) : 0x20 ≤ b :=
  UInt8.le_trans (by decide) h

theorem clean_sequence (hs : IsSequence s) (hhigh : ∀ b∈s,0x80 ≤ b) : Clean s :=
  ⟨hs.validText,fun b hb => high_not_control (hhigh b hb)⟩

theorem replacement_spec : IsSequence replacement ∧ ∀ b∈replacement,0x80 ≤ b := by
  refine ⟨⟨cons_ne_nil _ _,?_⟩,?_⟩ <;> decide +kernel

theorem escape_high (hhigh : ∀ b∈s,0x80 ≤ b) : escape (true,s)=s := by
  rcases s with _ | ⟨c,_ | ⟨d,rest⟩⟩
  · rfl
  · have hc : 0x80 ≤ c := hhigh c mem_cons_self
    have hlow : ∀ b : UInt8,b < 0x80 → c≠b :=
      fun b hb heq => absurd hb (UInt8.not_lt.mpr (heq ▸ hc))
    rw [escape,if_neg (hlow 34 (by decide)),if_neg (hlow 92 (by decide)),
      if_neg (hlow 8 (by decide)),if_neg (hlow 12 (by decide)),if_neg (hlow 10 (by decide)),
      if_neg (hlow 13 (by decide)),if_neg (hlow 9 (by decide)),
      if_neg (UInt8.not_lt.mpr (high_not_control hc))]
  · rfl

theorem escape_plain_printable :
    ∀ c : UInt8,c < 0x80 → ∀ b∈escape (true,[c]),0x20 ≤ b ∧ b < 0x80 := by
  have hall : ∀ c : UInt8,c < 0x80 →
      (escape (true,[c])).all (fun b => 0x20 ≤ b && b < 0x80)=true :=
    forall_byte (by decide +kernel)
  intro c hc b hb
  simpa using all_eq_true.mp (hall c hc) b hb

theorem clean_escape {p : Bool×Bytes} (hp : IsPiece p) : Clean (escape p) := by
  cases hp with
  | plain hc => exact clean_printable (escape_plain_printable _ hc)
  | sequence hs hhigh =>
    rw [escape_high hhigh]
    exact clean_sequence hs hhigh
  | stray _ => exact clean_sequence replacement_spec.1 replacement_spec.2

theorem clean_limited {depth : ℕ} (hs : Clean s) :
    Clean (if kMaxJsonDepth < depth then ascii "null" else s) := by
  split
  · exact clean_printable (by decide +kernel)
  · exact hs

theorem clean_escaped (s : Bytes) : Clean (escaped s) := by
  have hquote : Clean [34] := clean_single (by decide) (by decide)
  have hspec := utf8Pieces_spec s.length s le_rfl
  have hpieces := clean_flatMap fun p hp => clean_escape (hspec.1 p hp)
  exact (hquote.append hpieces).append hquote

end Framing

section NumberText

def IsFraction (s : Bytes) : Prop :=
  s=[] ∨ ∃ digits : Bytes,s=46::digits ∧ digits≠[] ∧ ∀ c∈digits,isDigit c=true

/-- Nothing, or digits behind `e` and a sign. -/
def IsExponent (s : Bytes) : Prop :=
  s=[] ∨ ∃ (e : UInt8) (sign digits : Bytes),s=e::(sign++digits) ∧ (e=101 ∨ e=69) ∧
    (sign=[] ∨ sign=[43] ∨ sign=[45]) ∧ digits≠[] ∧ ∀ c∈digits,isDigit c=true

def IsWhole (s : Bytes) : Prop :=
  s=[48] ∨ s≠[] ∧ s.head?≠some 48 ∧ ∀ c∈s,isDigit c=true

def IsNumber (s : Bytes) : Prop :=
  ∃ sign whole fraction exponent : Bytes,s=sign++(whole++(fraction++exponent)) ∧
    (sign=[] ∨ sign=[45]) ∧ IsWhole whole ∧ IsFraction fraction ∧ IsExponent exponent

def NumberEnd (rest : Bytes) : Prop :=
  ∀ c∈rest.head?,isDigit c=false ∧ c≠46 ∧ c≠101 ∧ c≠69

theorem IsWhole.digits {s : Bytes} (h : IsWhole s) : s≠[] ∧ ∀ c∈s,isDigit c=true := by
  rcases h with rfl | ⟨hne,_,hdigits⟩
  · exact ⟨cons_ne_nil _ _,by decide +kernel⟩
  · exact ⟨hne,hdigits⟩

theorem digit_printable {c : UInt8} (hc : isDigit c=true) : 0x20 ≤ c ∧ c < 0x80 := by
  rw [isDigit,Bool.and_eq_true,decide_eq_true_iff,decide_eq_true_iff] at hc
  exact ⟨UInt8.le_trans (by decide) hc.1,UInt8.lt_of_le_of_lt hc.2 (by decide)⟩

theorem IsNumber.printable {s : Bytes} (hs : IsNumber s) : ∀ c∈s,0x20 ≤ c ∧ c < 0x80 := by
  obtain ⟨sign,whole,fraction,exponent,rfl,hsign,hwhole,hfraction,hexponent⟩ := hs
  have hdigit : ∀ digits : Bytes,(∀ c∈digits,isDigit c=true) → ∀ c∈digits,0x20 ≤ c ∧ c < 0x80 :=
    fun _ h c hc => digit_printable (h c hc)
  simp only [forall_mem_append]
  refine ⟨?_,hdigit whole hwhole.digits.2,?_,?_⟩
  · rcases hsign with rfl | rfl <;> decide +kernel
  · rcases hfraction with rfl | ⟨digits,rfl,_,hdigits⟩
    · exact fun _ h => absurd h not_mem_nil
    · exact forall_mem_cons.mpr ⟨by decide,hdigit digits hdigits⟩
  · rcases hexponent with rfl | ⟨e,esign,digits,rfl,he,hesign,_,hdigits⟩
    · exact fun _ h => absurd h not_mem_nil
    rw [forall_mem_cons,forall_mem_append]
    refine ⟨?_,?_,hdigit digits hdigits⟩
    · rcases he with rfl | rfl <;> decide
    · rcases hesign with rfl | rfl | rfl <;> decide +kernel

variable {rest : Bytes}

theorem skipDigits_append {digits : Bytes} (hdigits : ∀ c∈digits,isDigit c=true)
    (hrest : ∀ c∈rest.head?,isDigit c=false) :
    skipDigits (digits++rest)=rest ∧ (digits++rest).takeWhile isDigit=digits := by
  have hend : rest.dropWhile isDigit=rest ∧ rest.takeWhile isDigit=[] := by
    cases rest with
    | nil => exact ⟨rfl,rfl⟩
    | cons c t =>
      have hc := hrest c rfl
      rw [dropWhile_cons,takeWhile_cons,hc]
      exact ⟨rfl,rfl⟩
  rw [skipDigits,dropWhile_append_of_pos hdigits,takeWhile_append_of_pos hdigits,
    hend.1,hend.2,append_nil]
  exact ⟨rfl,rfl⟩

theorem skipSign_append {sign digits : Bytes} (hsign : sign=[] ∨ sign=[43] ∨ sign=[45])
    (hne : digits≠[]) (hdigits : ∀ c∈digits,isDigit c=true) :
    skipSign (sign++(digits++rest))=digits++rest := by
  rcases hsign with rfl | rfl | rfl
  · obtain ⟨c,t,rfl⟩ := exists_cons_of_ne_nil hne
    have hc := hdigits c mem_cons_self
    have hplus : ∀ b : UInt8,isDigit b=false → c≠b := by
      intro b hb heq
      rw [heq,hb] at hc
      cases hc
    simp only [nil_append,cons_append,skipSign]
    rw [if_neg]
    simp [hplus 45 (by decide),hplus 43 (by decide)]
  · rfl
  · rfl

theorem exponent_head {exponent : Bytes} (hexponent : IsExponent exponent)
    (hrest : NumberEnd rest) : ∀ c∈(exponent++rest).head?,isDigit c=false ∧ c≠46 := by
  rcases hexponent with rfl | ⟨e,sign,digits,rfl,he,_,_⟩
  · exact fun c hc => ⟨(hrest c hc).1,(hrest c hc).2.1⟩
  · intro c hc
    obtain rfl : e=c := Option.some.inj hc
    rcases he with rfl | rfl <;> decide

theorem skipFraction_append {fraction exponent : Bytes} (hfraction : IsFraction fraction)
    (hexponent : IsExponent exponent) (hrest : NumberEnd rest) :
    skipFraction (fraction++(exponent++rest))=exponent++rest := by
  have hhead := exponent_head hexponent hrest
  rcases hfraction with rfl | ⟨digits,rfl,_,hdigits⟩
  · rw [nil_append]
    generalize exponent++rest=t at hhead
    cases t with
    | nil => rfl
    | cons c t => rw [skipFraction,if_neg (hhead c rfl).2]
  · have hskip := (skipDigits_append hdigits fun c hc => (hhead c hc).1).1
    rw [cons_append,skipFraction,if_pos rfl,hskip]

theorem fraction_head {fraction exponent : Bytes} (hfraction : IsFraction fraction)
    (hexponent : IsExponent exponent) (hrest : NumberEnd rest) :
    ∀ c∈(fraction++(exponent++rest)).head?,isDigit c=false := by
  rcases hfraction with rfl | ⟨digits,rfl,_,_⟩
  · exact fun c hc => (exponent_head hexponent hrest c hc).1
  · intro c hc
    obtain rfl : 46=c := Option.some.inj hc
    decide

variable [FloatText]

theorem numberUpTo_append (s rest : Bytes) :
    numberUpTo (s++rest) rest=.ok (.number (FloatText.strtod s),rest) := by
  rw [numberUpTo,length_append,Nat.add_sub_cancel,take_left]

theorem parseNumber_append {s : Bytes} (hs : IsNumber s) (hrest : NumberEnd rest) :
    parseNumber (s++rest)=.ok (.number (FloatText.strtod s),rest) := by
  rw [← numberUpTo_append s rest]
  obtain ⟨sign,whole,fraction,exponent,hshape,hsign,hwhole,hfraction,hexponent⟩ := hs
  have hunsigned : skipSign (s++rest)=whole++(fraction++(exponent++rest)) := by
    rw [hshape]
    simp only [append_assoc]
    exact skipSign_append (hsign.imp id Or.inr) hwhole.digits.1 hwhole.digits.2
  have hdigits := skipDigits_append hwhole.digits.2 (fraction_head hfraction hexponent hrest)
  have hmantissa := skipFraction_append hfraction hexponent hrest
  simp only [parseNumber,hunsigned,hdigits.1,hdigits.2,hmantissa]
  rw [if_neg (by simp [hwhole.digits.1])]
  rcases hexponent with rfl | ⟨e,esign,edigits,rfl,he,hesign,hne,hedigits⟩
  · cases rest with
    | nil => rfl
    | cons c t =>
      have hc := hrest c rfl
      exact if_neg (by simp [hc.2.2.1,hc.2.2.2])
  · have hskip := skipDigits_append hedigits fun c hc => (hrest c hc).1
    have hesigned : skipSign (esign++(edigits++rest))=edigits++rest :=
      skipSign_append hesign hne hedigits
    have hletter : (decide (e=101) || decide (e=69))=true := by
      rcases he with rfl | rfl <;> rfl
    simp only [cons_append,append_assoc]
    rw [if_pos hletter,hesigned,hskip.1,hskip.2,if_neg hne]

end NumberText

section StringText

theorem stringFrom_plain {c : UInt8} (hquote : c≠34) (hcontrol : 0x20 ≤ c) (hescape : c≠92)
    (out rest : Bytes) : stringFrom out (c::rest)=stringFrom (out++[c]) rest := by
  rw [stringFrom,length_cons,stringLoop,if_neg hquote,if_neg (UInt8.not_lt.mpr hcontrol),
    if_pos hescape]
  rfl

theorem stringFrom_escape {s found rest : Bytes} (h : parseEscape s=.ok (found,rest))
    (out : Bytes) : stringFrom out (92::s)=stringFrom (out++found) rest := by
  have hle := parseEscape_yields s found rest h
  have hrounds := stringLoop_rounds (out++found) (by omega : rest.length < s.length+1)
    (Nat.lt_succ_self rest.length)
  rw [stringFrom,length_cons,stringLoop,if_neg (by decide),if_neg (by decide),
    if_neg (by decide),h]
  exact hrounds

theorem stringFrom_high {s : Bytes} (hhigh : ∀ b∈s,0x80 ≤ b) (out rest : Bytes) :
    stringFrom out (s++rest)=stringFrom (out++s) rest := by
  induction s generalizing out with
  | nil => rw [append_nil,nil_append]
  | cons c s ih =>
    rw [forall_mem_cons] at hhigh
    have hne : ∀ b : UInt8,b < 0x80 → c≠b :=
      fun b hb heq => absurd hb (UInt8.not_lt.mpr (heq ▸ hhigh.1))
    rw [cons_append,stringFrom_plain (hne 34 (by decide)) (high_not_control hhigh.1)
      (hne 92 (by decide)),ih hhigh.2,append_assoc]
    rfl

theorem hexNumber_control : ∀ c : UInt8,c < 0x20 →
    hexNumber 0 [48,48,hexByte (c.toNat/16),hexByte (c.toNat%16)]=some c.toNat :=
  forall_byte (by decide +kernel)

theorem parseEscape_control {c : UInt8} (hc : c < 0x20) (rest : Bytes) :
    parseEscape (117::48::48::hexByte (c.toNat/16)::hexByte (c.toNat%16)::rest)=.ok ([c],rest) := by
  have hnat : c.toNat < 32 := UInt8.lt_iff_toNat_lt.mp hc
  have hhex : parseHex4 (48::48::hexByte (c.toNat/16)::hexByte (c.toNat%16)::rest)=
      .ok (c.toNat,rest) := by
    rw [parseHex4,if_neg (by simp)]
    simp only [take_succ_cons,take_zero,hexNumber_control c hc,drop_succ_cons,
      drop_zero]
  have hunicode : parseUnicode (48::48::hexByte (c.toNat/16)::hexByte (c.toNat%16)::rest)=
      .ok ([c],rest) := by
    have hlow : ¬0xD800 ≤ c.toNat := by omega
    have hcode : codepoint c.toNat=[c] := by
      rw [codepoint,if_pos (by omega),UInt8.ofNat_toNat]
    simp only [parseUnicode,hhex,bind,Except.bind]
    rw [if_neg (by simp [hlow]),if_neg (by simp [hlow]),hcode]
  simpa [parseEscape] using hunicode

def cleaned (p : Bool×Bytes) : Bytes := if p.1 then p.2 else replacement

theorem stringFrom_ascii {c : UInt8} (out rest : Bytes) :
    stringFrom out (escape (true,[c])++rest)=stringFrom (out++[c]) rest := by
  rw [escape]
  split_ifs with hquote hslash hb hf hn hr ht hcontrol
  · subst hquote
    exact stringFrom_escape rfl out
  · subst hslash
    exact stringFrom_escape rfl out
  · subst hb
    exact stringFrom_escape rfl out
  · subst hf
    exact stringFrom_escape rfl out
  · subst hn
    exact stringFrom_escape rfl out
  · subst hr
    exact stringFrom_escape rfl out
  · subst ht
    exact stringFrom_escape rfl out
  · exact stringFrom_escape (parseEscape_control hcontrol rest) out
  · exact stringFrom_plain hquote (UInt8.not_lt.mp hcontrol) hslash out rest

theorem stringFrom_piece {p : Bool×Bytes} (hp : IsPiece p) (out rest : Bytes) :
    stringFrom out (escape p++rest)=stringFrom (out++cleaned p) rest := by
  cases hp with
  | plain _ => exact stringFrom_ascii out rest
  | sequence _ hhigh =>
    rw [escape_high hhigh]
    exact stringFrom_high hhigh out rest
  | stray _ => exact stringFrom_high replacement_spec.2 out rest

theorem stringFrom_pieces {pieces : List (Bool×Bytes)} (hpieces : ∀ p∈pieces,IsPiece p)
    (out rest : Bytes) :
    stringFrom out (pieces.flatMap escape++34::rest)=.ok (out++pieces.flatMap cleaned,rest) := by
  induction pieces generalizing out with
  | nil =>
    rw [flatMap_nil,flatMap_nil,append_nil]
    rfl
  | cons p pieces ih =>
    rw [forall_mem_cons] at hpieces
    rw [flatMap_cons,flatMap_cons,append_assoc,stringFrom_piece hpieces.1,
      ih hpieces.2,append_assoc]

theorem escaped_append (s rest : Bytes) :
    escaped s++rest=34::((utf8Pieces s.length s).flatMap escape++34::rest) := by
  simp [escaped]

theorem parseString_escaped (s rest : Bytes) :
    parseString ((utf8Pieces s.length s).flatMap escape++34::rest)=.ok (sanitiseUtf8 s,rest) :=
  stringFrom_pieces (utf8Pieces_spec s.length s le_rfl).1 [] rest

theorem parseKey_escaped (key rest : Bytes) :
    parseKey (escaped key++58::rest)=.ok (sanitiseUtf8 key,rest) := by
  have hskip : ∀ t : Bytes,skipSpace (34::t)=34::t := fun _ => rfl
  rw [escaped_append,parseKey,hskip]
  simp only [ne_eq,not_true_eq_false,if_false,parseString_escaped,bind,Except.bind]
  rfl

end StringText

section Openings

def Opens (s : Bytes) : Prop :=
  ∃ c rest,s=c::rest ∧ isBlank c=false ∧ c≠93 ∧ c≠125

theorem IsNumber.head {s : Bytes} (hs : IsNumber s) :
    ∃ c rest,s=c::rest ∧ (c=45 ∨ isDigit c=true) := by
  obtain ⟨sign,whole,fraction,exponent,rfl,hsign,hwhole,_,_⟩ := hs
  obtain ⟨c,digits,rfl⟩ := exists_cons_of_ne_nil hwhole.digits.1
  rcases hsign with rfl | rfl
  · exact ⟨c,_,rfl,Or.inr (hwhole.digits.2 c mem_cons_self)⟩
  · exact ⟨45,_,rfl,Or.inl rfl⟩

theorem numeric_ne : ∀ c : UInt8,c=45 ∨ isDigit c=true →
    isBlank c=false ∧ c≠93 ∧ c≠125 ∧ c≠110 ∧ c≠116 ∧ c≠102 ∧ c≠34 ∧ c≠91 ∧ c≠123 :=
  forall_byte (by decide +kernel)

theorem Opens.skipSpace {s : Bytes} (hs : Opens s) (rest : Bytes) :
    Json.skipSpace (s++rest)=s++rest := by
  obtain ⟨c,t,rfl,hblank,_⟩ := hs
  rw [cons_append,Json.skipSpace,dropWhile_cons,hblank]
  rfl

theorem opens_commas {s : Bytes} (hs : Opens s) (rest : List Bytes) (tail : Bytes) :
    Opens (commas (s::rest)++tail) := by
  obtain ⟨c,t,rfl,hc⟩ := hs
  cases rest with
  | nil => exact ⟨c,_,rfl,hc⟩
  | cons s' rest => exact ⟨c,_,rfl,hc⟩

theorem Opens.head {s : Bytes} (hs : Opens s) :
    Json.skipSpace s=s ∧ s.head?≠some 93 ∧ s.head?≠some 125 := by
  have hskip := hs.skipSpace []
  rw [append_nil] at hskip
  obtain ⟨c,t,rfl,_,hbracket,hbrace⟩ := hs
  exact ⟨hskip,by simpa using hbracket,by simpa using hbrace⟩

theorem setMember_fresh {key : Bytes} {members : List (Bytes×Json)}
    (h : key∉members.map Prod.fst) (value : Json) :
    setMember key value members=members++[(key,value)] := by
  induction members with
  | nil => rfl
  | cons m rest ih =>
    rw [map_cons,mem_cons,not_or] at h
    rw [setMember,if_neg (Ne.symm h.1),ih h.2]
    rfl

end Openings

section ValueText

variable [FloatText]

def rereadNumber (d : Double) : Json :=
  if d.isNaN then .string (ascii "nan")
  else if d.eq .infinity then .string (ascii "inf")
  else if d.eq .negInfinity then .string (ascii "-inf")
  else .number (FloatText.strtod (FloatText.d2string d))

mutual

def reread : Json → Json
  | null => null
  | boolean b => boolean b
  | number d => rereadNumber d
  | string s => string (sanitiseUtf8 s)
  | array elements => array (rereadElements elements)
  | object members => object (rereadMembers [] members)

def rereadElements : List Json → List Json
  | [] => []
  | v::rest => reread v::rereadElements rest

def rereadMembers (out : List (Bytes×Json)) : List (Bytes×Json) → List (Bytes×Json)
  | [] => out
  | (key,v)::rest => rereadMembers (setMember (sanitiseUtf8 key) (reread v) out) rest

end

/-- Every finite number in a value is printed as a number of the grammar. -/
def Spelled (v : Json) : Prop :=
  ∀ d,.number d∈v.parts → d.isFinite=true → IsNumber (FloatText.d2string d)

variable {v : Json}

theorem Spelled.element {elements : List Json} (h : Spelled (.array elements))
    (hv : v∈elements) : Spelled v :=
  fun d hd => h d (parts_element hv hd)

variable {members : List (Bytes×Json)}

theorem Spelled.member (h : Spelled (.object members))
    {m : Bytes×Json} (hm : m∈members) : Spelled m.2 :=
  fun d hd => h d (parts_member hm hd)

theorem rereadNumber_finite {d : Double} (h : d.isFinite=true) :
    rereadNumber d=.number (FloatText.strtod (FloatText.d2string d)) := by
  obtain ⟨hnan,hinf,hneg⟩ := (Double.isFinite_iff d).mp h
  rw [rereadNumber,if_neg hnan,if_neg hinf,if_neg hneg]

theorem parseValue_number {s rest : Bytes} (hs : IsNumber s) (hrest : NumberEnd rest)
    (levels : ℕ) :
    parseValue (levels+1) (s++rest)=.ok (.number (FloatText.strtod s),rest) := by
  rw [← parseNumber_append hs hrest]
  obtain ⟨c,t,rfl,hc⟩ := hs.head
  obtain ⟨_,_,_,hn,ht,hf,hquote,hbracket,hbrace⟩ := numeric_ne c hc
  rw [cons_append,parseValue,if_neg hn,if_neg ht,if_neg hf,if_neg hquote,
    if_neg hbracket,if_neg hbrace]

theorem parseValue_escaped (s rest : Bytes) (levels : ℕ) :
    parseValue (levels+1) (escaped s++rest)=.ok (.string (sanitiseUtf8 s),rest) := by
  rw [escaped_append,parseValue,if_neg (by decide),if_neg (by decide),if_neg (by decide),
    if_pos rfl,parseString_escaped]
  rfl

theorem parseValue_numberText {d : Double} (hd : Spelled (.number d)) {rest : Bytes}
    (hrest : NumberEnd rest) (levels : ℕ) :
    parseValue (levels+1) (numberText d++rest)=.ok (rereadNumber d,rest) := by
  rw [numberText,rereadNumber]
  split_ifs with hnan hinf hneg
  · exact parseValue_escaped (ascii "nan") rest levels
  · exact parseValue_escaped (ascii "inf") rest levels
  · exact parseValue_escaped (ascii "-inf") rest levels
  · have hfinite := (Double.isFinite_iff d).mpr ⟨hnan,hinf,hneg⟩
    exact parseValue_number (hd d (self_mem_parts _) hfinite) hrest levels

variable {depth : ℕ}

theorem serialiseInto_opens (hv : Spelled v)
    (hdepth : depth ≤ kMaxJsonDepth) : Opens (serialiseInto depth v) := by
  have hlimit : ¬kMaxJsonDepth < depth := by omega
  cases v with
  | null =>
    rw [serialiseInto,if_neg hlimit]
    exact ⟨110,_,rfl,rfl,by decide,by decide⟩
  | boolean b =>
    rw [serialiseInto,if_neg hlimit]
    cases b
    · exact ⟨102,_,rfl,rfl,by decide,by decide⟩
    · exact ⟨116,_,rfl,rfl,by decide,by decide⟩
  | number d =>
    rw [serialiseInto,if_neg hlimit,numberText]
    split_ifs with hnan hinf hneg
    · exact ⟨34,_,rfl,rfl,by decide,by decide⟩
    · exact ⟨34,_,rfl,rfl,by decide,by decide⟩
    · exact ⟨34,_,rfl,rfl,by decide,by decide⟩
    · have hfinite := (Double.isFinite_iff d).mpr ⟨hnan,hinf,hneg⟩
      obtain ⟨c,t,htext,hc⟩ := (hv d (self_mem_parts _) hfinite).head
      obtain ⟨hblank,hbracket,hbrace,_⟩ := numeric_ne c hc
      exact ⟨c,t,htext,hblank,hbracket,hbrace⟩
  | string s =>
    rw [serialiseInto,if_neg hlimit]
    exact ⟨34,_,rfl,rfl,by decide,by decide⟩
  | array elements =>
    rw [serialiseInto,if_neg hlimit]
    exact ⟨91,_,rfl,rfl,by decide,by decide⟩
  | object members =>
    rw [serialiseInto,if_neg hlimit]
    exact ⟨123,_,rfl,rfl,by decide,by decide⟩

/-- A value whose text is parsed to what `reread` says, wherever it may stand. -/
def Reads (levels depth : ℕ) (v : Json) : Prop :=
  Opens (serialiseInto depth v) ∧ ∀ rest,NumberEnd rest →
    parseValue levels (serialiseInto depth v++rest)=.ok (v.reread,rest)

variable {levels : ℕ}

theorem Reads.skipSpace (hv : Reads levels depth v) {c : UInt8}
    (hc : isDigit c=false ∧ c≠46 ∧ c≠101 ∧ c≠69) (rest : Bytes) :
    parseValue levels (Json.skipSpace (serialiseInto depth v++c::rest))=
      .ok (v.reread,c::rest) := by
  rw [hv.1.skipSpace]
  refine hv.2 (c::rest) fun b hb => ?_
  obtain rfl : c=b := Option.some.inj hb
  exact hc

theorem elementsFrom_commas {elements : List Json}
    (hall : ∀ w∈v::elements,Reads levels depth w) (out : List Json) (rest : Bytes) :
    elementsFrom (parseValue levels) out
        (commas (serialiseElements depth (v::elements))++93::rest)=
      .ok (.array (out++rereadElements (v::elements)),rest) := by
  induction elements generalizing v out with
  | nil =>
    have hv := (hall v mem_cons_self).skipSpace (c := 93) (by decide) rest
    exact elementsFrom_close hv out
  | cons w elements ih =>
    rw [forall_mem_cons] at hall
    have hv := hall.1.skipSpace (c := 44) (by decide)
      (commas (serialiseElements depth (w::elements))++93::rest)
    have htext : commas (serialiseElements depth (v::w::elements))++93::rest=
        serialiseInto depth v++44::(commas (serialiseElements depth (w::elements))++93::rest) := by
      simp [serialiseElements,commas]
    rw [htext,elementsFrom_comma (parseValue_inner levels) hv,ih hall.2,append_assoc]
    rfl

theorem membersFrom_commas {m : Bytes×Json}
    (hall : ∀ m'∈m::members,Reads levels depth m'.2) (out : List (Bytes×Json))
    (rest : Bytes) :
    membersFrom (parseValue levels) out
        (commas (serialiseMembers depth (m::members))++125::rest)=
      .ok (.object (rereadMembers out (m::members)),rest) := by
  induction members generalizing m out with
  | nil =>
    have hv := (hall m mem_cons_self).skipSpace (c := 125) (by decide) rest
    have htext : commas (serialiseMembers depth [m])++125::rest=
        escaped m.1++58::(serialiseInto depth m.2++125::rest) := by
      simp [serialiseMembers,commas]
    rw [htext,membersFrom_close (parseKey_escaped m.1 _) hv]
    rfl
  | cons m' members ih =>
    rw [forall_mem_cons] at hall
    have hv := hall.1.skipSpace (c := 44) (by decide)
      (commas (serialiseMembers depth (m'::members))++125::rest)
    have htext : commas (serialiseMembers depth (m::m'::members))++125::rest=
        escaped m.1++58::(serialiseInto depth m.2++
          44::(commas (serialiseMembers depth (m'::members))++125::rest)) := by
      simp [serialiseMembers,commas]
    rw [htext,membersFrom_comma (parseValue_inner levels) (parseKey_escaped m.1 _) hv,ih hall.2]
    rfl

theorem parseArray_commas {elements : List Json}
    (hall : ∀ v∈elements,Reads levels depth v) (rest : Bytes) :
    parseArray (parseValue levels) (commas (serialiseElements depth elements)++93::rest)=
      .ok (.array (rereadElements elements),rest) := by
  cases elements with
  | nil => rfl
  | cons v elements =>
    have hopens := opens_commas (hall v mem_cons_self).1
      (serialiseElements depth elements) (93::rest)
    have helements := elementsFrom_commas hall [] rest
    rw [serialiseElements] at helements ⊢
    rw [parseArray,hopens.head.1,if_neg hopens.head.2.1,helements]
    rfl

theorem parseObject_commas
    (hall : ∀ m∈members,Reads levels depth m.2) (rest : Bytes) :
    parseObject (parseValue levels) (commas (serialiseMembers depth members)++125::rest)=
      .ok (.object (rereadMembers [] members),rest) := by
  cases members with
  | nil => rfl
  | cons m members =>
    have hkey : Opens (escaped m.1++58::serialiseInto depth m.2) :=
      ⟨34,_,rfl,rfl,by decide,by decide⟩
    have hopens := opens_commas hkey (serialiseMembers depth members) (125::rest)
    have hmembers := membersFrom_commas hall [] rest
    rw [serialiseMembers] at hmembers ⊢
    rw [parseObject,hopens.head.1,if_neg hopens.head.2.2,hmembers]

theorem parseValue_serialiseInto (v : Json) (hspelled : Spelled v)
    (hdepth : depth+v.height ≤ kMaxJsonDepth) (hlevels : v.height ≤ levels) {rest : Bytes}
    (hrest : NumberEnd rest) :
    parseValue (levels+1) (serialiseInto depth v++rest)=.ok (v.reread,rest) := by
  have hlimit : ¬kMaxJsonDepth < depth := by omega
  induction v using Json.induct generalizing levels depth rest with
  | null =>
    rw [serialiseInto,if_neg hlimit]
    rfl
  | boolean b =>
    rw [serialiseInto,if_neg hlimit]
    cases b <;> rfl
  | number d =>
    rw [serialiseInto,if_neg hlimit]
    exact parseValue_numberText hspelled hrest levels
  | string s =>
    rw [serialiseInto,if_neg hlimit]
    exact parseValue_escaped s rest levels
  | array elements ih =>
    have hlower := height_array_le.mp (le_refl (array elements).height)
    -- an element takes one level of the parser and one of the text
    have hall : ∀ v∈elements,Reads levels (depth+1) v := by
      intro v hv
      have hheight := hlower v hv
      have hs := hspelled.element hv
      obtain ⟨k,rfl⟩ : ∃ k,levels=k+1 := ⟨levels-1,by omega⟩
      exact ⟨serialiseInto_opens hs (by omega),fun _ h =>
        ih v hv hs (by omega) (by omega) h (by omega)⟩
    rw [serialiseInto,if_neg hlimit,reread,← parseArray_commas hall rest]
    simp [parseValue]
  | object members ih =>
    have hlower := height_object_le.mp (le_refl (object members).height)
    have hall : ∀ m∈members,Reads levels (depth+1) m.2 := by
      intro m hm
      have hheight := hlower m hm
      have hs := hspelled.member hm
      obtain ⟨k,rfl⟩ : ∃ k,levels=k+1 := ⟨levels-1,by omega⟩
      exact ⟨serialiseInto_opens hs (by omega),fun _ h =>
        ih m hm hs (by omega) (by omega) h (by omega)⟩
    rw [serialiseInto,if_neg hlimit,reread,← parseObject_commas hall rest]
    simp [parseValue]

theorem parse_reread (hspelled : Spelled v) (hheight : v.height ≤ kMaxJsonDepth) :
    parse v.serialise=.ok v.reread := by
  have hend : NumberEnd [] := fun _ h => nomatch h
  have hvalue := parseValue_serialiseInto v hspelled (by omega : 0+v.height ≤ kMaxJsonDepth)
    hheight hend
  have hopens := serialiseInto_opens hspelled (Nat.zero_le kMaxJsonDepth)
  rw [append_nil] at hvalue
  have hrun : runParser (serialiseInto 0 v)=.ok (v.reread,[]) := by
    rw [runParser,hopens.head.1,hvalue]
    rfl
  rw [parse,serialise,hrun]

theorem serialiseElements_eq (depth : ℕ) (elements : List Json) :
    serialiseElements depth elements=elements.map (serialiseInto depth) := by
  induction elements with
  | nil => rfl
  | cons v rest ih => rw [serialiseElements,ih,map_cons]

theorem serialiseMembers_eq (depth : ℕ) (members : List (Bytes×Json)) :
    serialiseMembers depth members=
      members.map fun m => escaped m.1++58::serialiseInto depth m.2 := by
  induction members with
  | nil => rfl
  | cons m rest ih => rw [serialiseMembers,ih,map_cons]

theorem clean_numberText {d : Double} (hd : Spelled (.number d)) : Clean (numberText d) := by
  rw [numberText]
  split_ifs with hnan hinf hneg
  · exact clean_printable (by decide +kernel)
  · exact clean_printable (by decide +kernel)
  · exact clean_printable (by decide +kernel)
  · have hfinite := (Double.isFinite_iff d).mpr ⟨hnan,hinf,hneg⟩
    exact clean_printable (hd d (self_mem_parts _) hfinite).printable

theorem clean_serialiseInto (v : Json) (hspelled : Spelled v) (depth : ℕ) :
    Clean (serialiseInto depth v) := by
  induction v using Json.induct generalizing depth with
  | null =>
    rw [serialiseInto]
    exact clean_limited (clean_printable (by decide +kernel))
  | boolean b =>
    rw [serialiseInto]
    refine clean_limited ?_
    cases b
    · exact clean_printable (by decide +kernel)
    · exact clean_printable (by decide +kernel)
  | number d =>
    rw [serialiseInto]
    exact clean_limited (clean_numberText hspelled)
  | string s =>
    rw [serialiseInto]
    exact clean_limited (clean_escaped s)
  | array elements ih =>
    have hall : ∀ s∈serialiseElements (depth+1) elements,Clean s := by
      rw [serialiseElements_eq,forall_mem_map]
      intro v hv
      exact ih v hv (hspelled.element hv) (depth+1)
    have hopen : Clean [91] := clean_single (by decide) (by decide)
    have hclose : Clean [93] := clean_single (by decide) (by decide)
    rw [serialiseInto]
    exact clean_limited ((hopen.append (clean_commas hall)).append hclose)
  | object members ih =>
    have hcolon : Clean [58] := clean_single (by decide) (by decide)
    have hall : ∀ s∈serialiseMembers (depth+1) members,Clean s := by
      rw [serialiseMembers_eq,forall_mem_map]
      intro m hm
      exact (clean_escaped m.1).append (hcolon.append (ih m hm (hspelled.member hm) (depth+1)))
    have hopen : Clean [123] := clean_single (by decide) (by decide)
    have hclose : Clean [125] := clean_single (by decide) (by decide)
    rw [serialiseInto]
    exact clean_limited ((hopen.append (clean_commas hall)).append hclose)

theorem rereadMembers_eq {out : List (Bytes×Json)}
    (hkeys : ((out++members).map Prod.fst).Nodup)
    (hvalid : ∀ m∈members,isValidUtf8 m.1=true) (hsame : ∀ m∈members,m.2.reread=m.2) :
    rereadMembers out members=out++members := by
  induction members generalizing out with
  | nil => rw [rereadMembers,append_nil]
  | cons m rest ih =>
    rw [forall_mem_cons] at hvalid hsame
    have hfresh : m.1∉out.map Prod.fst := by
      rw [map_append,map_cons,nodup_append] at hkeys
      exact fun hmem => hkeys.2.2 m.1 hmem m.1 mem_cons_self rfl
    have hnext : ((out++[m]++rest).map Prod.fst).Nodup := by
      rwa [append_assoc]
    have hset : setMember (sanitiseUtf8 m.1) m.2.reread out=out++[m] := by
      rw [sanitiseUtf8_eq hvalid.1,hsame.1,setMember_fresh hfresh]
    rw [show m=(m.1,m.2) from rfl,rereadMembers,hset,ih hnext hvalid.2 hsame.2,
      append_assoc]
    rfl

structure Faithful (v : Json) : Prop where
  numbers : ∀ d,.number d∈v.parts → rereadNumber d=.number d
  strings : ∀ s,.string s∈v.parts → isValidUtf8 s=true
  keys : ∀ members,.object members∈v.parts → ∀ m∈members,isValidUtf8 m.1=true
  distinct : ∀ members,.object members∈v.parts → (members.map Prod.fst).Nodup

theorem Faithful.part {w : Json} (h : Faithful v) (hw : ∀ u∈w.parts,u∈v.parts) :
    Faithful w :=
  ⟨fun d hd => h.numbers d (hw _ hd),fun s hs => h.strings s (hw _ hs),
    fun ms hms => h.keys ms (hw _ hms),fun ms hms => h.distinct ms (hw _ hms)⟩

theorem Faithful.reread_eq (h : Faithful v) : v.reread=v := by
  induction v using Json.induct with
  | null => rfl
  | boolean b => rfl
  | number d => exact h.numbers d (self_mem_parts _)
  | string s => rw [reread,sanitiseUtf8_eq (h.strings s (self_mem_parts _))]
  | array elements ih =>
    have hall : ∀ v∈elements,v.reread=v :=
      fun v hv => ih v hv (h.part fun _ hu => parts_element hv hu)
    rw [reread]
    clear h ih
    congr 1
    induction elements with
    | nil => rfl
    | cons v rest ih =>
      rw [forall_mem_cons] at hall
      rw [rereadElements,hall.1,ih hall.2]
  | object members ih =>
    have hall : ∀ m∈members,m.2.reread=m.2 :=
      fun m hm => ih m hm (h.part fun _ hu => parts_member hm hu)
    have hdistinct : (([]++members).map Prod.fst).Nodup := h.distinct members (self_mem_parts _)
    rw [reread,rereadMembers_eq hdistinct (h.keys members (self_mem_parts _)) hall]
    rfl

/-- The text of a value with finite numbers and distinct keys is one line of valid UTF-8,
whatever bytes its strings hold; when the strings are valid UTF-8, parsing gives the value
back. -/
theorem parse_serialise (v : Json) (hheight : v.height ≤ kMaxJsonDepth)
    (hfinite : ∀ d,.number d∈v.parts → d.isFinite=true)
    (hkeys : ∀ members,.object members∈v.parts → (members.map Prod.fst).Nodup)
    (hnumbers : ∀ d,.number d∈v.parts → d.isFinite=true →
      FloatText.strtod (FloatText.d2string d)=d ∧ IsNumber (FloatText.d2string d)) :
    isValidUtf8 v.serialise=true ∧ (∀ c∈v.serialise,0x20 ≤ c) ∧
    ((∀ s,.string s∈v.parts → isValidUtf8 s=true) →
      (∀ members,.object members∈v.parts → ∀ m∈members,isValidUtf8 m.1=true) →
      parse v.serialise=.ok v) := by
  have hspelled : Spelled v := fun d hd hd' => (hnumbers d hd hd').2
  have hclean := clean_serialiseInto v hspelled 0
  refine ⟨(isValidUtf8_iff _).mpr hclean.1,hclean.2,fun hstrings hkeyTexts => ?_⟩
  have hnumber : ∀ d,.number d∈v.parts → rereadNumber d=.number d := by
    intro d hd
    rw [rereadNumber_finite (hfinite d hd),(hnumbers d hd (hfinite d hd)).1]
  have hfaithful : Faithful v := ⟨hnumber,hstrings,hkeyTexts,hkeys⟩
  rw [parse_reread hspelled hheight,hfaithful.reread_eq]

end ValueText

section Reference

attribute [local instance] DoubleText.reference

def document : Json :=
  .object [(ascii "key",.array [.number ⟨0x3FF0000000000000⟩,.string [0xC3,0xA9]])]

theorem document_number {d : Double} (hd : .number d∈document.parts) :
    d=⟨0x3FF0000000000000⟩ := by
  simpa [document,parts,elementParts,memberParts] using hd

theorem document_object {members : List (Bytes×Json)}
    (h : .object members∈document.parts) : document=.object members := by
  have hmem : Json.object members=document ∨ False := by
    simpa [document,parts,elementParts,memberParts] using h
  exact (hmem.resolve_right id).symm

theorem parse_serialise_document : parse document.serialise=.ok document := by
  have hnumber : ∀ d,.number d∈document.parts → d=⟨0x3FF0000000000000⟩ :=
    fun _ => document_number
  have hprinted : FloatText.d2string ⟨0x3FF0000000000000⟩=[49] := by decide +kernel
  have hone : IsNumber [49] :=
    ⟨[],[49],[],[],rfl,Or.inl rfl,Or.inr ⟨by decide,by decide,by decide +kernel⟩,Or.inl rfl,
      Or.inl rfl⟩
  refine (parse_serialise document (by decide) ?_ ?_ ?_).2.2 ?_ ?_
  · intro d hd
    rw [hnumber d hd]
    decide
  · intro members hmembers
    cases document_object hmembers
    decide
  · intro d hd _
    rw [hnumber d hd,hprinted]
    exact ⟨by decide +kernel,hone⟩
  · intro s hs
    have hs' : s=[0xC3,0xA9] := by
      simpa [document,parts,elementParts,memberParts] using hs
    rw [hs']
    decide
  · intro members hmembers
    cases document_object hmembers
    decide

end Reference

end Json

end Mnemos
