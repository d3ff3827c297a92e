import Mnemos.KeyMoves
import Mnemos.ZSetRuns

/-!
# Windows of a sorted set

What the ZRANGE commands return is a window of the ascending listing, whichever
encoding the sorted set has.
-/

open List

namespace Mnemos.Commands

variable {A : Type}

/-- The position of an index that counts from the end if it is negative. -/
def position (i : ℤ) (length : ℕ) : ℤ := if i < 0 then i+length else i

def slice (start stop : ℤ) (xs : List A) : List A :=
  (xs.take (position stop xs.length+1).toNat).drop (position start xs.length).toNat

/-- The elements behind the first so many, all of them for a negative count. -/
def limited : Option (ℤ×ℤ) → List A → List A
  | none,xs => xs
  | some (offset,count),xs =>
    if offset < 0 then []
    else if count < 0 then xs.drop offset.toNat else (xs.drop offset.toNat).take count.toNat

def lexContains (r : LexRange) (member : Bytes) : Bool := r.aboveMin member && r.belowMax member

/-- What a specification selects of the pairs of a sorted set in ascending order. -/
def window (spec : RangeSpec) (pairs : List (Bytes×Double)) : List (Bytes×Double) :=
  match spec.bounds with
  | .rank start stop => slice start stop (ordered spec.options.reverse pairs)
  | .score r => limited spec.options.limit
      (ordered spec.options.reverse (pairs.filter (r.containsScore ·.2)))
  | .lex r => limited spec.options.limit
      (ordered spec.options.reverse (pairs.filter (lexContains r ·.1)))

theorem slice_resolved (start stop : ℤ) (xs : List A) :
    (match resolveIndexRange start stop xs.length with
      | none => []
      | some (first,last) => (xs.take (last+1)).drop first)=slice start stop xs := by
  unfold slice resolveIndexRange position
  dsimp only
  generalize (if start < 0 then start+xs.length else start)=first
  generalize (if stop < 0 then stop+xs.length else stop)=last
  have hlow : (if first < 0 then 0 else first)=max first 0 := by split <;> omega
  have hhigh : (if (xs.length : ℤ) ≤ last then (xs.length : ℤ)-1 else last)=
      min last (xs.length-1) := by
    split <;> omega
  rw [hlow,hhigh]
  by_cases hnone : xs.length=0 ∨ min last (xs.length-1) < max first 0 ∨ (xs.length : ℤ) ≤ max first 0
  · rw [if_pos hnone,eq_comm,drop_eq_nil_iff,length_take]
    omega
  rw [if_neg hnone]
  dsimp only
  rw [show (max first 0).toNat=first.toNat by omega]
  by_cases hall : (xs.length : ℤ) ≤ last
  · rw [take_of_length_le (by omega),take_of_length_le (by omega)]
  · rw [show (min last (xs.length-1)).toNat+1=(last+1).toNat by omega]

theorem limitItems_eq (items : List (Bytes×Double)) (limit : Option (ℤ×ℤ)) :
    limitItems items limit=limited limit items := by
  cases limit with
  | none => rfl
  | some l =>
    obtain ⟨offset,count⟩ := l
    unfold limitItems limited
    dsimp only
    by_cases hneg : offset < 0
    · rw [if_pos (.inl hneg),if_pos hneg]
    rw [if_neg hneg]
    by_cases hbehind : (items.length : ℤ) ≤ offset
    · rw [if_pos (.inr hbehind),drop_of_length_le (by omega),take_nil,ite_self]
    rw [if_neg (by omega)]
    by_cases hall : count < 0
    · rw [if_pos hall,if_neg (by omega)]
    rw [if_neg hall]
    split
    · rfl
    · rw [take_of_length_le (by omega)]

/-! ## Lexicographical ranges -/

section Lex

variable {r : LexRange} {a b : Bytes}

theorem aboveMin_up (hab : a < b) (ha : r.aboveMin a=true) : r.aboveMin b=true := by
  obtain ⟨min,max⟩ := r
  cases min <;> grind [LexRange.aboveMin]

theorem belowMax_down (hab : a < b) (hb : r.belowMax b=true) : r.belowMax a=true := by
  obtain ⟨min,max⟩ := r
  cases max <;> grind [LexRange.belowMax]

theorem contains_of_isEmpty (h : r.isEmpty=true) (member : Bytes) :
    lexContains r member=false := by
  obtain ⟨min,max⟩ := r
  rw [lexContains]
  cases min <;> cases max <;> grind [LexRange.isEmpty,LexRange.aboveMin,LexRange.belowMax]

theorem lexRun_eq {pairs : List (Bytes×Double)} (h : pairs.Pairwise fun a b => a.1 < b.1) :
    lexRun r pairs=pairs.filter (lexContains r ·.1) :=
  run_eq_filter (R := fun a b : Bytes×Double => a.1 < b.1) (p := fun e => r.aboveMin e.1)
    (q := fun e => r.belowMax e.1) aboveMin_up belowMax_down h

end Lex

section Sets

variable [Platform] {z : ZSetValue}

theorem rangeByScore_eq (hok : z.Ok) {r : ScoreRange} (h : r.Numbers) :
    z.rangeByScore r=z.all.filter (r.containsScore ·.2) := by
  have hswap := hok.rangeByScore h
  rw [ZSetValue.listing,filter_map] at hswap
  exact map_injective_iff.mpr Prod.swap_injective hswap

/-- All scores of the sorted set are the same number. -/
def OneScore (z : ZSetValue) : Prop := ∀ a∈z.all,∀ b∈z.all,a.2.eq b.2=true

theorem members_ascend (hok : z.Ok) (h : OneScore z) : z.all.Pairwise fun a b => a.1 < b.1 := by
  have hasc := hok.listing.ascending
  rw [ZSetValue.listing,pairwise_map] at hasc
  refine hasc.imp_of_mem fun {a b} ha hb hab => ?_
  have hkey := (Double.eq_spec (h a ha b hb)).2.2
  rcases hab with hlt | ⟨-,hlt⟩
  · exact absurd hkey (ne_of_lt hlt)
  · exact hlt

theorem rangeByLex_eq (hok : z.Ok) (h : OneScore z) (r : LexRange) :
    z.rangeByLex r=z.all.filter (lexContains r ·.1) := by
  rw [ZSetValue.rangeByLex]
  split
  · rename_i hempty
    rw [eq_comm,filter_eq_nil_iff]
    exact fun e _ => by rw [contains_of_isEmpty hempty]; exact Bool.false_ne_true
  · exact lexRun_eq (members_ascend hok h)

theorem parseScore_number {text : Bytes} {d : Double} (h : parseScore text=some d) :
    d.isNaN=false := by
  unfold parseScore at h
  split at h
  · cases h; decide
  · split at h
    · cases h; decide
    · dsimp only at h
      split at h
      · cases h
      · rename_i hnumber
        cases h
        simp only [Bool.or_eq_true,not_or] at hnumber
        exact Bool.eq_false_iff.mpr hnumber.2

theorem parseScoreBound_number {text : Bytes} {bound : Double×Bool}
    (h : parseScoreBound text=some bound) : bound.1.isNaN=false := by
  unfold parseScoreBound at h
  split at h <;> obtain ⟨d,hd,rfl⟩ := Option.map_eq_some_iff.mp h <;> exact parseScore_number hd

theorem parseBounds_numbers {by_ : RangeBy} {first second low high : Bytes} {r : ScoreRange}
    (h : parseBounds by_ first second low high=.ok (.score r)) : r.Numbers := by
  unfold parseBounds at h
  split at h
  · split at h <;> cases h
  · split at h
    · rename_i hmin hmax
      cases h
      exact ⟨parseScoreBound_number hmin,parseScoreBound_number hmax⟩
    · cases h
  · split at h <;> cases h

theorem parseRangeSpec_numbers {generic allowWithScores reverse : Bool} {by_ : RangeBy}
    {args : List Bytes} {spec : RangeSpec}
    (h : parseRangeSpec generic allowWithScores by_ reverse args=.ok spec) {r : ScoreRange}
    (hr : spec.bounds=.score r) : r.Numbers := by
  unfold parseRangeSpec at h
  split at h
  · cases h
  split at h
  · cases h
  split at h
  · cases h
  dsimp only at h
  split at h
  · cases h
  · rename_i hbounds
    cases h
    obtain rfl : _=RangeBounds.score r := hr
    exact parseBounds_numbers hbounds

theorem all_eq_of_perm {z' : ZSetValue} (hok : z.Ok) (hok' : z'.Ok) (h : z'.all.Perm z.all) :
    z'.all=z.all := by
  have hasc := hok.listing.ascending
  have hasc' := hok'.listing.ascending
  rw [ZSetValue.listing,pairwise_map] at hasc hasc'
  exact h.eq_of_pairwise (fun a b _ _ hab hba => absurd (hab.trans hba) (Earlier.irrefl _)) hasc' hasc

/-- A ZRANGE command selects its window of the ascending listing, and the same from any sorted set
with the same members and scores. -/
theorem collectRange_window {generic allowWithScores reverse : Bool} {by_ : RangeBy}
    {args : List Bytes} {spec : RangeSpec}
    (hspec : parseRangeSpec generic allowWithScores by_ reverse args=.ok spec) (hok : z.Ok) :
    Listing z.listing ∧
    ((∀ r,spec.bounds=.lex r → OneScore z) → collectRange z spec=window spec z.all) ∧
    ∀ z' : ZSetValue,z'.Ok → z'.all.Perm z.all → collectRange z' spec=collectRange z spec := by
  refine ⟨hok.listing,fun hlex => ?_,fun z' hok' hperm => ?_⟩
  · unfold collectRange window
    cases hbounds : spec.bounds with
    | rank start stop => exact slice_resolved start stop _
    | score r =>
      dsimp only
      rw [limitItems_eq,rangeByScore_eq hok (parseRangeSpec_numbers hspec hbounds)]
    | lex r =>
      dsimp only
      rw [limitItems_eq,rangeByLex_eq hok (hlex r hbounds)]
  · have hall := all_eq_of_perm hok hok' hperm
    unfold collectRange
    cases hbounds : spec.bounds with
    | rank start stop => rw [hall]
    | score r =>
      have hnumbers := parseRangeSpec_numbers hspec hbounds
      dsimp only
      rw [rangeByScore_eq hok' hnumbers,rangeByScore_eq hok hnumbers,hall]
    | lex r =>
      dsimp only
      rw [ZSetValue.rangeByLex,ZSetValue.rangeByLex,hall]

end Sets

section Reference

attribute [local instance] PlatformReference.platform

def scored : ZSetValue :=
  (ZSetValue.addAll [(ascii "a",DoubleText.ofInt 1),(ascii "b",DoubleText.ofInt 2)]
    (.empty,Stream'.const 0)).1

theorem collectRange_window_last :
    collectRange scored ⟨⟨.score,true,false,some (0,1)⟩,
      .score ⟨DoubleText.ofInt 1,.infinity,false,false⟩⟩=[(ascii "b",DoubleText.ofInt 2)] := by
  have hone := ZSetValue.empty_ok.1.add DoubleText.reference_exact
    (by decide +kernel : (DoubleText.ofInt 1).isNaN=false) (ascii "a") (Stream'.const 0)
  have hok : scored.Ok := (hone.1.add DoubleText.reference_exact
    (by decide +kernel : (DoubleText.ofInt 2).isNaN=false) (ascii "b") _).1
  refine ((@collectRange_window _ scored true true false .rank [ascii "inf",ascii "1",
    ascii "BYSCORE",ascii "REV",ascii "LIMIT",ascii "0",ascii "1"] _ rfl hok).2.1
      fun r h => by cases h).trans ?_
  decide +kernel

end Reference

end Mnemos.Commands

/-! ## ZADD with INCR -/

open List Function

namespace Mnemos.Commands

open Cmd

section Platform

variable [Platform] {ctx : Context} {s : Keyspace} {z : ZSetValue} {f : ZaddFlags} {n : Double}
  {member : Bytes}

def ZaddFlags.final (z : ZSetValue) (member : Bytes) (n : Double) : Double :=
  Platform.add ((z.score member).getD .zero) n

end Platform

section Reference

attribute [local instance] PlatformReference.platform

def increment : List Bytes := [ascii "ZADD",ascii "k",ascii "INCR",ascii "5",ascii "a"]

end Reference

end Mnemos.Commands
