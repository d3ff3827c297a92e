import Mathlib.Data.Finmap
import Mnemos.Refinement
import Mnemos.ZSetValue

/-!
# Sequences of sorted set operations

Every sequence of additions, removals and copies with scores that are numbers
answers as it does on a finite map from members to scores, whose pairs are
listed by score and member.
-/

namespace Mnemos

open Refinement List

namespace ScoreRange

structure Numbers (r : ScoreRange) : Prop where
  min : r.min.isNaN=false
  max : r.max.isNaN=false

def Admits (r : ScoreRange) (k : ℤ) : Prop :=
  (if r.minExclusive then r.min.key < k else r.min.key ≤ k) ∧
    if r.maxExclusive then k < r.max.key else k ≤ r.max.key

instance (r : ScoreRange) (k : ℤ) : Decidable (r.Admits k) := inferInstanceAs (Decidable (_ ∧ _))

section Tests

variable {r : ScoreRange} (h : r.Numbers) {s : Double} (hs : s.isNaN=false)
include h hs

theorem below_iff : r.below s=true ↔ if r.minExclusive then s.key ≤ r.min.key else s.key < r.min.key := by
  unfold below Double.le Double.lt
  rw [h.min,hs]
  split <;> simp

theorem reaches_iff : r.reaches s=true ↔
    if r.minExclusive then r.min.key < s.key else r.min.key ≤ s.key := by
  unfold reaches Double.le Double.lt
  rw [h.min,hs]
  split <;> simp

theorem above_iff : r.above s=true ↔ if r.maxExclusive then r.max.key ≤ s.key else r.max.key < s.key := by
  unfold above Double.le Double.lt
  rw [h.max,hs]
  split <;> simp

theorem containsScore_iff : r.containsScore s=true ↔ r.Admits s.key := by
  have hbelow := below_iff h hs
  have habove := above_iff h hs
  unfold below at hbelow
  unfold above at habove
  unfold containsScore Admits
  rw [Bool.and_eq_true,Bool.not_eq_true',Bool.not_eq_true',←Bool.not_eq_true,←Bool.not_eq_true,
    hbelow,habove]
  split <;> split <;> simp

theorem reaches_eq : r.reaches s=!r.below s := by
  rw [Bool.eq_iff_iff,Bool.not_eq_true',←Bool.not_eq_true,reaches_iff h hs,below_iff h hs]
  split <;> simp

theorem containsScore_of_isEmpty (hempty : r.isEmpty=true) : r.containsScore s=false := by
  rw [Bool.eq_false_iff]
  intro hin
  rw [containsScore_iff h hs] at hin
  obtain ⟨hlow,hhigh⟩ := hin
  simp only [isEmpty,Double.lt,Double.eq,h.min,h.max,Bool.or_eq_true,Bool.and_eq_true,
    Bool.not_false,true_and,decide_eq_true_eq,beq_iff_eq] at hempty
  rcases hempty with hempty | ⟨hsame,hmin | hmax⟩
  · split at hlow <;> split at hhigh <;> omega
  · rw [if_pos hmin] at hlow
    split at hhigh <;> omega
  · rw [if_pos hmax] at hhigh
    split at hlow <;> omega

end Tests

end ScoreRange

structure NotAbove (a b : ScoredMember) : Prop where
  left : a.1.isNaN=false
  right : b.1.isNaN=false
  le : a.1.key ≤ b.1.key

theorem Listing.notAbove {xs : List ScoredMember} (h : Listing xs) : xs.Pairwise NotAbove := by
  refine h.ascending.imp_of_mem fun {a b} ha hb hab => ⟨h.numbers a ha,h.numbers b hb,?_⟩
  rcases hab with hlt | ⟨heq,-⟩
  · exact Int.le_of_lt hlt
  · exact Int.le_of_eq heq

namespace ScoreRange

variable {r : ScoreRange} (h : r.Numbers)
include h

theorem below_down {a b : ScoredMember} (hab : NotAbove a b) (hb : r.below b.1=true) :
    r.below a.1=true := by
  have hle := hab.le
  rw [below_iff h hab.right] at hb
  rw [below_iff h hab.left]
  split
  · rename_i hex
    rw [if_pos hex] at hb
    omega
  · rename_i hex
    rw [if_neg hex] at hb
    omega

theorem below_of_last {xs : List ScoredMember} (hpairs : xs.Pairwise NotAbove)
    (hlast : ∀ x,xs.getLast?=some x → r.below x.1=true) : ∀ x∈xs,r.below x.1=true :=
  forall_of_getLast (R := NotAbove) (p := fun x => r.below x.1)
    (fun hab hb => below_down h hab hb) hpairs hlast

theorem not_below_of_head {xs : List ScoredMember} (hpairs : xs.Pairwise NotAbove)
    (hhead : ∀ x,xs.head?=some x → r.below x.1=false) : ∀ x∈xs,r.below x.1=false :=
  forall_of_head (R := NotAbove) (p := fun x => r.below x.1)
    (fun hab hb => below_down h hab hb) hpairs hhead

theorem contains_down {a b : ScoredMember} (hab : NotAbove a b) (ha : r.below a.1=false)
    (hb : r.containsScore b.1=true) : r.containsScore a.1=true := by
  have hle := hab.le
  rw [containsScore_iff h hab.right] at hb
  rw [containsScore_iff h hab.left]
  rw [←Bool.not_eq_true,below_iff h hab.left] at ha
  refine ⟨?_,?_⟩
  · split
    · rename_i hex
      rw [if_pos hex] at ha
      omega
    · rename_i hex
      rw [if_neg hex] at ha
      omega
  · have hhigh := hb.2
    split
    · rename_i hex
      rw [if_pos hex] at hhigh
      omega
    · rename_i hex
      rw [if_neg hex] at hhigh
      omega

omit h in
theorem containsScore_of_below {s : Double} (hs : r.below s=true) : r.containsScore s=false := by
  unfold below at hs
  unfold containsScore
  rw [hs]
  rfl

omit h in
theorem containsScore_of_above {s : Double} (hs : r.above s=true) : r.containsScore s=false := by
  unfold above at hs
  unfold containsScore
  rw [hs]
  simp

end ScoreRange

namespace ZSetValue

theorem pairsFrom_eq (list : SkipList ScoredMember) (node : Option ℕ) :
    pairsFrom list node=(list.itemsFrom node).map Prod.swap := by
  cases node with
  | none => rfl
  | some x => simp [pairsFrom,SkipList.itemsFrom]

theorem filter_of_reached {r : ScoreRange} (h : r.Numbers) {zs : List ScoredMember}
    (hpairs : zs.Pairwise NotAbove) (hreached : ∀ z∈zs,r.below z.1=false) :
    zs.filter (r.containsScore ·.1)=zs.takeWhile (r.containsScore ·.1) := by
  refine filter_eq_takeWhile (R := fun a b => NotAbove a b ∧ r.below a.1=false)
    (fun hab hb => r.contains_down h hab.1 hab.2 hb) ?_
  exact hpairs.imp_of_mem fun ha _ hab => ⟨hab,hreached _ ha⟩

theorem filter_of_below {r : ScoreRange} {ys : List ScoredMember}
    (hbelow : ∀ y∈ys,r.below y.1=true) : ys.filter (r.containsScore ·.1)=[] := by
  rw [filter_eq_nil_iff]
  intro y hy
  rw [r.containsScore_of_below (hbelow y hy)]
  exact Bool.false_ne_true

section Range

variable {list : SkipList ScoredMember} {xs : List ScoredMember} (hholds : list.Holds xs)
  (hlisting : Listing xs) {r : ScoreRange} (h : r.Numbers)
include hholds hlisting h

theorem nextInRange_spec :
    (list.itemsFrom (nextInRange list r)).takeWhile (r.containsScore ·.1)=
      xs.filter (r.containsScore ·.1) := by
  obtain ⟨ys,zs,rfl,hys,hzs,hfrom⟩ := hholds.search fun x => !r.reaches x.1
  obtain ⟨hpys,hpzs,-⟩ := pairwise_append.mp hlisting.notAbove
  have hreaches : ∀ x∈ys++zs,(!r.reaches x.1)=r.below x.1 := by
    intro x hx
    rw [r.reaches_eq h (hlisting.numbers x hx),Bool.not_not]
  -- The search passed what is below the range and stopped at the first score that reaches it.
  have hbefore : ∀ y∈ys,r.below y.1=true := by
    refine r.below_of_last h hpys fun y hy => ?_
    rw [←hreaches y (mem_append_left zs (mem_of_getLast? hy))]
    exact hys y hy
  have hbehind : ∀ z∈zs,r.below z.1=false := by
    refine r.not_below_of_head h hpzs fun z hz => ?_
    rw [←hreaches z (mem_append_right ys (mem_of_head? hz))]
    exact hzs z hz
  rw [filter_append,filter_of_below hbefore,nil_append,filter_of_reached h hpzs hbehind]
  unfold nextInRange
  dsimp only
  cases hnext : (SkipList.levelAt list.nodes
      ((list.path fun x => !r.reaches x.1).getD 0 (SkipList.header,0)).1 0).forward with
  | none =>
    rw [hnext] at hfrom
    rw [←hfrom]
  | some node =>
    rw [hnext] at hfrom
    dsimp only
    split
    · rename_i habove
      rw [←hfrom]
      unfold SkipList.itemsFrom
      dsimp only
      rw [map_cons,takeWhile_cons_of_neg,takeWhile_nil]
      rw [r.containsScore_of_above habove]
      exact Bool.false_ne_true
    · rw [hfrom]

theorem firstInRange_spec (hsome : r.isEmpty=false) :
    (list.itemsFrom (firstInRange list r)).takeWhile (r.containsScore ·.1)=
      xs.filter (r.containsScore ·.1) := by
  have htail := hholds.tail
  unfold firstInRange
  rw [hsome,Bool.false_or]
  by_cases hzero : list.length=0
  · rw [if_pos (by simpa using hzero)]
    rw [hholds.length] at hzero
    rw [eq_nil_of_length_eq_zero hzero]
    rfl
  rw [if_neg (by simpa using hzero)]
  cases hlast : list.tail with
  | none =>
    rw [hlast,Option.map_none,eq_comm,getLast?_eq_none_iff] at htail
    rw [htail]
    rfl
  | some last =>
    rw [hlast,Option.map_some] at htail
    dsimp only
    split
    · rename_i hbelow
      rw [filter_of_below]
      · rfl
      refine r.below_of_last h hlisting.notAbove fun x hx => ?_
      rw [←htail] at hx
      rw [←Option.some.inj hx]
      exact hbelow
    · exact nextInRange_spec hholds hlisting h

end Range

section Text

variable [FloatText]

theorem Ok.rangeByScore {z : ZSetValue} (hok : z.Ok) {r : ScoreRange} (h : r.Numbers) :
    (z.rangeByScore r).map Prod.swap=z.listing.filter (r.containsScore ·.1) := by
  have hnumbers := hok.listing.numbers
  unfold ZSetValue.rangeByScore
  by_cases hempty : r.isEmpty=true
  · rw [if_pos hempty,map_nil,eq_comm,filter_eq_nil_iff]
    intro x hx
    rw [r.containsScore_of_isEmpty h (hnumbers x hx) hempty]
    exact Bool.false_ne_true
  rw [if_neg hempty]
  cases z with
  | listPack lp =>
    dsimp only
    unfold ZSetValue.listing
    rw [filter_map]
    rfl
  | skipList list scores =>
    obtain ⟨xs,hholds,hlisting,-⟩ := hok
    dsimp only
    rw [listing_skipList hholds,←firstInRange_spec hholds hlisting h (Bool.eq_false_iff.mpr hempty),
      pairsFrom_eq,takeWhile_map,map_map]
    exact map_id _

inductive Operation where
  | add (member : Bytes) (score : Double)
  | erase (member : Bytes)
  | copy

def Operation.Number : Operation → Prop
  | .add _ score => score.isNaN=false
  | .erase _ => True
  | .copy => True

abbrev ScoreMap := Finmap fun _ : Bytes => ℤ

/-- The operation on the stored sorted set, with the random draws to come; copying goes on with
the copy. -/
def Operation.step : Operation → ZSetValue×Draws → Option Bool×ZSetValue×Draws
  | .add member score,s => (some (s.1.add member score s.2).1,(s.1.add member score s.2).2)
  | .erase member,s => (some (s.1.erase member).1,(s.1.erase member).2,s.2)
  | .copy,s => (none,s.1.copy s.2)

def Operation.spec : Operation → ScoreMap → Option Bool×ScoreMap
  | .add member score,m => (some (decide (member∉m)),m.insert member score.key)
  | .erase member,m => (some (decide (member∈m)),m.erase member)
  | .copy,m => (none,m)

/-- Everything that can be asked of a sorted set is answered as by the finite map, whose pairs are
listed by score and member. -/
structure Shows (z : ZSetValue) (m : ScoreMap) : Prop where
  numbers : ∀ e∈z.all,e.2.isNaN=false
  ascending : (z.all.map fun e => (e.2.key,e.1)).Pairwise Earlier
  lists : ∀ k member,(k,member)∈z.all.map (fun e => (e.2.key,e.1)) ↔ m.lookup member=some k
  size : z.size=m.keys.card
  score : ∀ member,(z.score member).map Double.key=m.lookup member
  rank : ∀ member,z.rank member=(z.all.map Prod.fst).idxOf? member
  range : ∀ r : ScoreRange,r.Numbers →
    (z.rangeByScore r).map (fun e => (e.2.key,e.1))=
      (z.all.map fun e => (e.2.key,e.1)).filter fun p => decide (r.Admits p.1)
  agree : ∀ list scores,z=skipList list scores → ∀ score member,
    (score,member)∈list.items ↔ scores.lookup member=some score

def design : Design Operation (ZSetValue×Draws) ScoreMap (Option Bool) where
  step := Operation.step
  spec := Operation.spec
  Sees s m := Shows s.1 m

structure Stands (z : ZSetValue) (m : ScoreMap) : Prop where
  ok : z.Ok
  same : ∀ p,p∈z.places ↔ m.lookup p.2=some p.1

section Stands

variable {z : ZSetValue} {m : ScoreMap}

theorem places_eq (z : ZSetValue) : z.places=z.all.map fun e => (e.2.key,e.1) := by
  unfold places ZSetValue.listing
  rw [map_map]
  rfl

theorem stands_empty : Stands empty ∅ := by
  refine ⟨empty_ok.1,fun p => ?_⟩
  unfold places
  rw [empty_ok.2]
  simp

theorem Stands.scoreIn (h : Stands z m) (member : Bytes) :
    (scoreIn z.listing member).map Double.key=m.lookup member := by
  have hlisting := h.ok.listing
  cases hscore : Mnemos.scoreIn z.listing member with
  | some s =>
    have hmem : (s.key,member)∈z.places := mem_map.mpr ⟨(s,member),hlisting.scoreIn_iff.mp hscore,rfl⟩
    exact ((h.same _).mp hmem).symm
  | none =>
    cases hlookup : m.lookup member with
    | none => rfl
    | some k =>
      obtain ⟨x,hx,hplace⟩ := mem_map.mp ((h.same (k,member)).mpr hlookup)
      have hmember : x.2=member := (Prod.mk.inj hplace).2
      exact absurd (mem_map.mpr ⟨x,hx,hmember⟩) (scoreIn_eq_none.mp hscore)

theorem Stands.mem_iff (h : Stands z m) (member : Bytes) :
    member∈m ↔ (Mnemos.scoreIn z.listing member).isSome=true := by
  rw [←Finmap.lookup_isSome,←h.scoreIn member,Option.isSome_map]

theorem Stands.card (h : Stands z m) : z.listing.length=m.keys.card := by
  have hkeys : m.keys=(z.listing.map Prod.snd).toFinset := by
    ext member
    rw [Finmap.mem_keys,mem_toFinset,h.mem_iff,Option.isSome_iff_ne_none,ne_eq,scoreIn_eq_none,
      not_not]
  rw [hkeys,toFinset_card_of_nodup h.ok.listing.distinct,length_map]

theorem Stands.shows (exact : FloatText.Exact) (h : Stands z m) : Shows z m where
  numbers e he := h.ok.listing.numbers e.swap (mem_map_of_mem he)
  ascending := by
    rw [←places_eq,places,pairwise_map]
    exact h.ok.listing.ascending
  lists k member := by
    rw [←places_eq]
    exact h.same (k,member)
  size := h.ok.size.trans h.card
  score member := by
    rw [h.ok.score exact]
    exact h.scoreIn member
  rank member := by
    rw [h.ok.rank]
    unfold rankIn ZSetValue.listing List.idxOf?
    rw [findIdx?_map,findIdx?_map]
    rfl
  range r hr := by
    have hrange := congrArg (List.map place) (h.ok.rangeByScore hr)
    rw [map_map] at hrange
    refine Eq.trans hrange ?_
    rw [←places_eq,places,filter_map]
    refine congrArg (List.map place) (filter_congr fun x hx => ?_)
    rw [Bool.eq_iff_iff,r.containsScore_iff hr (h.ok.listing.numbers x hx)]
    exact (decide_eq_true_iff).symm
  agree list scores hz score member := by
    have hok := h.ok
    rw [hz] at hok
    obtain ⟨xs,hholds,hlisting,hscores⟩ := hok
    rw [hholds.items,hscores]
    exact hlisting.scoreIn_iff.symm

theorem Stands.add (exact : FloatText.Exact) (h : Stands z m) {score : Double}
    (hnumber : score.isNaN=false) (member : Bytes) (draws : Draws) :
    (z.add member score draws).1=decide (member∉m) ∧
      Stands (z.add member score draws).2.1 (m.insert member score.key) := by
  obtain ⟨hok,hplaces,hnew⟩ := h.ok.add exact hnumber member draws
  refine ⟨?_,hok,fun p => ?_⟩
  · rw [hnew,Bool.eq_iff_iff,decide_eq_true_eq,h.mem_iff]
    cases Mnemos.scoreIn z.listing member <;> simp
  · rw [hplaces,h.same]
    by_cases hp : p.2=member
    · rw [hp,Finmap.lookup_insert]
      constructor
      · rintro (rfl | ⟨-,hne⟩)
        · rfl
        · exact absurd rfl hne
      · exact fun hkey => .inl (Prod.ext (Option.some.inj hkey).symm hp)
    · rw [Finmap.lookup_insert_of_ne m hp]
      constructor
      · rintro (rfl | ⟨hsame,-⟩)
        · exact absurd rfl hp
        · exact hsame
      · exact fun hsame => .inr ⟨hsame,hp⟩

theorem Stands.erase (h : Stands z m) (member : Bytes) :
    (z.erase member).1=decide (member∈m) ∧ Stands (z.erase member).2 (m.erase member) := by
  obtain ⟨hok,hplaces,hthere⟩ := h.ok.erase member
  refine ⟨?_,hok,fun p => ?_⟩
  · rw [hthere,Bool.eq_iff_iff,decide_eq_true_eq,h.mem_iff]
  · rw [hplaces,h.same]
    by_cases hp : p.2=member
    · rw [hp,Finmap.lookup_erase]
      simp
    · rw [Finmap.lookup_erase_ne hp]
      exact and_iff_left hp

theorem Stands.copy (exact : FloatText.Exact) (h : Stands z m) (draws : Draws) :
    Stands (z.copy draws).1 m := by
  obtain ⟨hok,hplaces⟩ := h.ok.copy exact draws
  exact ⟨hok,fun p => hplaces ▸ h.same p⟩

end Stands

theorem simulates (exact : FloatText.Exact) :
    design.Simulates (fun s m => Stands s.1 m) fun op _ _ => op.Number where
  sees h := h.shows exact
  result {op s m} h hnumber := by
    cases op with
    | add member score => exact congrArg some (h.add exact hnumber member s.2).1
    | erase member => exact congrArg some (h.erase member).1
    | copy => rfl
  next {op s m} h hnumber := by
    cases op with
    | add member score => exact (h.add exact hnumber member s.2).2
    | erase member => exact (h.erase member).2
    | copy => exact h.copy exact s.2

/-- **Sorted sets**: every sequence of operations with scores that are numbers, whatever levels are
drawn, answers as it does on a finite map from members to scores. -/
theorem zset_refines (exact : FloatText.Exact) (ops : List Operation)
    (hnumbers : ∀ op∈ops,op.Number) (draws : Draws) : design.Follows ops (empty,draws) ∅ :=
  (simulates exact).follows ops stands_empty
    (Design.meets_of_forall ops (fun op hop _ _ => hnumbers op hop) _ _)

end Text

section Witness

attribute [local instance] DoubleText.reference

theorem zset_refines_rescored :
    FloatText.Exact ∧ design.Follows [.add (ascii "a") (DoubleText.ofInt 1),
      .add (ascii "b") (DoubleText.ofInt 2),.add (ascii "a") (DoubleText.ofInt 3),.copy,
      .erase (ascii "a")] (empty,Stream'.const 0) ∅ := by
  refine ⟨DoubleText.reference_exact,zset_refines DoubleText.reference_exact _ ?_ _⟩
  have hnumbers : ∀ n∈[1,2,3],(DoubleText.ofInt n).isNaN=false := by decide +kernel
  intro op hop
  simp only [mem_cons,not_mem_nil,or_false] at hop
  rcases hop with rfl | rfl | rfl | rfl | rfl
  · exact hnumbers 1 (by decide)
  · exact hnumbers 2 (by decide)
  · exact hnumbers 3 (by decide)
  · trivial
  · trivial

end Witness

end ZSetValue

end Mnemos
