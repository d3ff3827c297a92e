import Mathlib.Order.Lattice
import Mnemos.Bytes

/-!
# Binary64 numbers

A double is its 64 bits. Comparisons follow IEEE 754: not-a-number is
unordered, the two zeros are equal, and every other number is ordered by sign
and magnitude, which is the order of the bit pattern below the sign.
-/

namespace Mnemos

structure Double where
  bits : UInt64
deriving DecidableEq,Repr

namespace Double

def magnitude (d : Double) : ℕ := d.bits.toNat%2^63

def isNaN (d : Double) : Bool := 0x7FF0000000000000 < d.magnitude

/-- Position of a number in the order of all numbers; both zeros are at zero. -/
def key (d : Double) : ℤ := if d.bits.toNat < 2^63 then d.magnitude else -d.magnitude

def eq (a b : Double) : Bool := !a.isNaN && !b.isNaN && a.key==b.key

def lt (a b : Double) : Bool := !a.isNaN && !b.isNaN && a.key < b.key

def le (a b : Double) : Bool := !a.isNaN && !b.isNaN && a.key ≤ b.key

def zero : Double := ⟨0⟩

def infinity : Double := ⟨0x7FF0000000000000⟩

def negInfinity : Double := ⟨0xFFF0000000000000⟩

def nan : Double := ⟨0x7FF8000000000000⟩

theorem lt_iff {a b : Double} (ha : a.isNaN=false) (hb : b.isNaN=false) :
    a.lt b=true ↔ a.key < b.key := by
  rw [lt,ha,hb]
  simp

theorem eq_iff {a b : Double} (ha : a.isNaN=false) (hb : b.isNaN=false) :
    a.eq b=true ↔ a.key=b.key := by
  rw [eq,ha,hb]
  simp

theorem eq_spec {a b : Double} (h : a.eq b=true) :
    a.isNaN=false ∧ b.isNaN=false ∧ a.key=b.key := by
  unfold eq at h
  simpa [and_assoc] using h

theorem eq_comm (a b : Double) : a.eq b=b.eq a := by
  have hsymm : ∀ {x y : Double},x.eq y=true → y.eq x=true := fun h =>
    (eq_iff (eq_spec h).2.1 (eq_spec h).1).mpr (eq_spec h).2.2.symm
  exact Bool.eq_iff_iff.mpr ⟨hsymm,hsymm⟩

theorem eq_self_iff (a : Double) : a.eq a=true ↔ a.isNaN=false := by
  unfold eq
  simp

end Double

/-- Conversions of doubles that are not part of the repository's own logic. -/
class FloatText where
  d2string : Double → Bytes
  /-- C `strtod` on a whole text, zero when no number starts it. -/
  strtod : Bytes → Double
  stod : Bytes → Option Double
  ofInt : ℤ → Double

/-- What the code relies on: a printed number reads back as an equal number, and
the text of an integer reads as the converted integer. -/
structure FloatText.Exact [FloatText] : Prop where
  /-- `strtod(d2string(x))==x` unless `x` is not a number. -/
  strtod_d2string : ∀ x : Double,x.isNaN=false → (strtod (d2string x)).eq x=true
  strtod_nan : ∀ x : Double,x.isNaN=true → (strtod (d2string x)).isNaN=true
  /-- `strtod` and the conversion round an integer in the same way. -/
  strtod_intDecimal : ∀ n,FitsSigned 64 n → strtod (intDecimal n)=ofInt n
  d2string_length : ∀ x : Double,(d2string x).length ≤ 32

theorem FloatText.exact_of_bits [FloatText] (hbits : ∀ x : Double,strtod (d2string x)=x)
    (hint : ∀ n,FitsSigned 64 n → strtod (intDecimal n)=ofInt n)
    (hlength : ∀ x : Double,(d2string x).length ≤ 32) : FloatText.Exact := by
  refine ⟨fun x hx => ?_,fun x hx => ?_,hint,hlength⟩
  · rw [hbits]
    exact (Double.eq_self_iff x).mpr hx
  · rw [hbits]
    exact hx

end Mnemos

/-! ## Reference conversions -/

namespace Mnemos.DoubleText

def roundNat (m : ℕ) : ℕ :=
  let e := Nat.log2 m
  if e ≤ 52 then (e+1022)*2^52+m*2^(52-e)
  else
    let unit := 2^(e-52)
    let q := m/unit
    let r := m%unit
    let up := if unit < 2*r || unit==2*r && q%2==1 then 1 else 0
    (e+1022)*2^52+q+up

def ofInt (n : ℤ) : Double :=
  if n=0 then .zero
  else ⟨UInt64.ofNat ((if n < 0 then 2^63 else 0)+roundNat n.natAbs)⟩

def wholePart (d : Double) : ℤ :=
  let e := d.magnitude/2^52
  let significand := 2^52+d.magnitude%2^52
  let whole : ℕ := if e < 1023 then 0 else significand*2^(e-1023)/2^52
  if d.bits.toNat < 2^63 then whole else -whole

def d2string (d : Double) : Bytes :=
  if FitsSigned 64 (wholePart d) ∧ ofInt (wholePart d)=d then intDecimal (wholePart d)
  else 120::leBytes 8 d.bits.toNat

def strtod (s : Bytes) : Double :=
  match stringToInt64 s with
  | some n => ofInt n
  | none =>
    match s with
    | 120::raw => ⟨UInt64.ofNat (leValue raw)⟩
    | _ => .zero

@[reducible] def reference : FloatText := ⟨d2string,strtod,fun s => some (strtod s),ofInt⟩

theorem stringToInt64_letter (raw : Bytes) : stringToInt64 (120::raw)=none := by
  rw [Option.eq_none_iff_forall_ne_some]
  intro n hn
  have htext := (stringToInt64_eq_some.mp hn).1
  rw [intDecimal] at htext
  split at htext
  · cases htext
  · have hdigit := natDecimal_digits n.natAbs 120 (by rw [← htext]; exact List.mem_cons_self)
    exact absurd hdigit (by decide)

theorem strtod_intDecimal {n : ℤ} (h : FitsSigned 64 n) : strtod (intDecimal n)=ofInt n := by
  unfold strtod
  rw [stringToInt64_intDecimal h]

theorem strtod_d2string (x : Double) : strtod (d2string x)=x := by
  rw [d2string]
  split
  · rename_i hwhole
    rw [strtod_intDecimal hwhole.1,hwhole.2]
  · have hlt : x.bits.toNat < 256^8 := x.bits.toNat_lt
    rw [strtod,stringToInt64_letter]
    dsimp only
    rw [leValue_leBytes_of_lt hlt,UInt64.ofNat_toNat]

theorem d2string_length (x : Double) : (d2string x).length ≤ 32 := by
  rw [d2string]
  split
  · rename_i hwhole
    have hlen := intDecimal_length hwhole.1
    omega
  · rw [List.length_cons,leBytes_length]
    omega

theorem reference_exact : @FloatText.Exact reference :=
  @FloatText.exact_of_bits reference strtod_d2string (fun _ hn => strtod_intDecimal hn)
    d2string_length

section Spelled

def spell (d : Double) : Bytes :=
  if FitsSigned 64 (wholePart d) ∧ ofInt (wholePart d)=d then intDecimal (wholePart d)
  else 48::46::natDecimal d.bits.toNat

def unspell (s : Bytes) : Double :=
  match stringToInt64 s with
  | some n => ofInt n
  | none => ⟨UInt64.ofNat ((readDigits 0 (s.drop 2)).getD 0)⟩

@[reducible] def spelled : FloatText := ⟨spell,unspell,fun s => some (unspell s),ofInt⟩

theorem stringToInt64_point (digits : Bytes) : stringToInt64 (48::46::digits)=none := by
  simp [stringToInt64]

theorem unspell_intDecimal {n : ℤ} (h : FitsSigned 64 n) : unspell (intDecimal n)=ofInt n := by
  unfold unspell
  rw [stringToInt64_intDecimal h]

theorem unspell_spell (x : Double) : unspell (spell x)=x := by
  rw [spell]
  split
  · rename_i hwhole
    rw [unspell_intDecimal hwhole.1,hwhole.2]
  · have hdigits : readDigits 0 ((48::46::natDecimal x.bits.toNat).drop 2)=some x.bits.toNat :=
      readDigits_natDecimal x.bits.toNat
    rw [unspell,stringToInt64_point,hdigits,Option.getD_some,UInt64.ofNat_toNat]

theorem spell_length (x : Double) : (spell x).length ≤ 32 := by
  rw [spell]
  split
  · rename_i hwhole
    have hlen := intDecimal_length hwhole.1
    omega
  · have hbits := x.bits.toNat_lt
    have hlen := natDecimal_length (by decide : 0 < 20) (by omega : x.bits.toNat < 10^20)
    rw [List.length_cons,List.length_cons]
    omega

theorem spelled_exact : @FloatText.Exact spelled :=
  @FloatText.exact_of_bits spelled unspell_spell (fun _ hn => unspell_intDecimal hn) spell_length

end Spelled

end Mnemos.DoubleText
