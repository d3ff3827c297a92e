import Mathlib.Data.Finset.Card
import Mnemos.SetValue
import Mnemos.ZSetRuns

/-!
# When sets and sorted sets stay compact

Whatever is added, erased and copied, a set of integers has at most 512
members, and a packed set or sorted set at most 128 of at most 64 bytes each.
-/

namespace Mnemos.SetValue

open Refinement

/-! ## Sequences of set operations -/

inductive Operation where
  | add (member : Bytes)
  | erase (member : Bytes)
  | copy

def Operation.step : Operation → SetValue → Option Bool×SetValue
  | .add member,s => ((s.add member).1,(s.add member).2)
  | .erase member,s => ((s.erase member).1,(s.erase member).2)
  | .copy,s => (none,s.copy)

def Operation.spec : Operation → Finset Bytes → Option Bool×Finset Bytes
  | .add member,a => (some (decide (member∉a)),insert member a)
  | .erase member,a => (some (decide (member∈a)),a.erase member)
  | .copy,a => (none,a)

/-- Everything that can be asked of a set is answered as by the finite set. -/
structure Shows (s : SetValue) (a : Finset Bytes) : Prop where
  contains : ∀ member,s.contains member=decide (member∈a)
  size : s.size=a.card
  nodup : s.members.Nodup
  members : s.members.toFinset=a

def design : Design Operation SetValue (Finset Bytes) (Option Bool) where
  step := Operation.step
  spec := Operation.spec
  Sees := Shows

structure Stands (s : SetValue) (a : Finset Bytes) : Prop where
  ok : s.Ok
  mem : ∀ member,member∈s.members ↔ member∈a

section Stands

variable {s : SetValue} {a : Finset Bytes}

theorem stands_empty : Stands empty ∅ := ⟨empty_ok,fun member => by simp [empty,members,IntSet.empty]⟩

theorem Stands.shows (h : Stands s a) : Shows s a := by
  have hmembers : s.members.toFinset=a := by
    ext member
    rw [List.mem_toFinset]
    exact h.mem member
  refine ⟨fun member => ?_,?_,h.ok.nodup,hmembers⟩
  · rw [Bool.eq_iff_iff,h.ok.contains_iff,h.mem,decide_eq_true_eq]
  · rw [h.ok.size,←hmembers,List.toFinset_card_of_nodup h.ok.nodup]

theorem Stands.add (h : Stands s a) (member : Bytes) :
    (s.add member).1=decide (member∉a) ∧ Stands (s.add member).2 (insert member a) := by
  obtain ⟨hok,hmem,hnew⟩ := h.ok.add member
  refine ⟨?_,hok,fun m => ?_⟩
  · rw [Bool.eq_iff_iff,hnew,h.mem,decide_eq_true_eq]
  · rw [hmem,h.mem,Finset.mem_insert]

theorem Stands.erase (h : Stands s a) (member : Bytes) :
    (s.erase member).1=decide (member∈a) ∧ Stands (s.erase member).2 (a.erase member) := by
  obtain ⟨hok,hmem,hthere⟩ := h.ok.erase member
  refine ⟨?_,hok,fun m => ?_⟩
  · rw [Bool.eq_iff_iff,hthere,h.mem,decide_eq_true_eq]
  · rw [hmem,h.mem,Finset.mem_erase]

theorem Stands.copy (h : Stands s a) : Stands s.copy a := by
  obtain ⟨hok,hmem⟩ := empty_ok.addAll s.members
  refine ⟨hok,fun m => (hmem m).trans ?_⟩
  rw [stands_empty.mem,h.mem]
  simp

end Stands

theorem simulates : design.Simulates Stands fun _ _ _ => True where
  sees h := h.shows
  result {op s a} h _ := by
    cases op with
    | add member => exact congrArg some (h.add member).1
    | erase member => exact congrArg some (h.erase member).1
    | copy => rfl
  next {op s a} h _ := by
    cases op with
    | add member => exact (h.add member).2
    | erase member => exact (h.erase member).2
    | copy => exact h.copy

/-- **Sets**: every sequence of operations answers as it does on a finite set of byte strings. -/
theorem set_refines (ops : List Operation) : design.Follows ops empty ∅ :=
  simulates.follows ops stands_empty (Design.meets_of_forall ops (fun _ _ _ _ => trivial) _ _)

end Mnemos.SetValue

/-! ## When sets and sorted sets stay compact -/

namespace Mnemos

open List

def ObjEncoding.stage : ObjEncoding → ℕ
  | .intSet => 0
  | .listPack => 1
  | _ => 2

theorem ObjEncoding.stage_le (e : ObjEncoding) : e.stage ≤ 2 := by cases e <;> decide

namespace SetValue

def run (s : SetValue) (ops : List Operation) : SetValue :=
  ops.foldl (fun s op => (op.step s).2) s

def Within (s : SetValue) : Prop :=
  (s.encoding=.intSet → s.size ≤ 512) ∧
    (s.encoding=.listPack → s.size ≤ 128 ∧ ∀ member∈s.members,member.length ≤ 64)

structure Limited (s : SetValue) : Prop where
  ok : s.Ok
  within : s.Within

theorem addToTable_encoding (table : Dict Bool) (member : Bytes) :
    (addToTable table member).2.encoding=.hashTable := by
  unfold addToTable
  dsimp only
  split <;> rfl

theorem addToListpack_encoding (lp : Listpack) (member : Bytes) :
    (addToListpack lp member).2.encoding=.hashTable ∨
    (addToListpack lp member).2.encoding=.listPack ∧
      ((listPack lp).contains member=true ∨ lp.numElements < 128 ∧ member.length ≤ 64) := by
  rw [addToListpack]
  split
  · rename_i hfound
    exact .inr ⟨rfl,.inl hfound⟩
  · split
    · exact .inl (addToTable_encoding _ _)
    · rename_i hroom
      simp only [Bool.or_eq_true,decide_eq_true_eq,not_or,not_le,not_lt] at hroom
      exact .inr ⟨rfl,.inr hroom⟩

variable {s : SetValue}

/-- The form after an addition: the old one for a member that is there, otherwise one that has
room for the new member. -/
theorem Ok.add_encoding (hok : s.Ok) (member : Bytes) :
    (member∈s.members ∧ (s.add member).2.encoding=s.encoding) ∨
    ((s.add member).2.encoding=.intSet ∧ s.encoding=.intSet ∧ s.size < 512) ∨
    ((s.add member).2.encoding=.listPack ∧ s.encoding≠.hashTable ∧ s.size < 128 ∧
      member.length ≤ 64) ∨
    (s.add member).2.encoding=.hashTable := by
  cases s with
  | hashTable table => exact .inr (.inr (.inr (addToTable_encoding table member)))
  | listPack lp =>
    obtain htable | ⟨hpacked,hthere | hroom⟩ := addToListpack_encoding lp member
    · exact .inr (.inr (.inr htable))
    · exact .inl ⟨(hok.contains_iff member).mp hthere,hpacked⟩
    · exact .inr (.inr (.inl ⟨hpacked,by simp [encoding],hroom⟩))
  | intSet ints =>
    have hints : ints.Ok := hok
    have hholds := packInts_holds hints
    have hsize : (packInts ints).numElements=ints.size := by
      rw [hholds.numElements,length_map,length_map]
      rfl
    have hnodup : (ints.values.map intDecimal).Nodup := Ok.nodup (s := intSet ints) hok
    have hsame := Ok.contains_iff (s := listPack (packInts ints)) ⟨_,hholds,hnodup⟩ member
    rw [members_listPack hholds] at hsame
    -- members of the packed integers are members of the set, and those never reach the listpack
    have hpack : member∉(intSet ints).members →
        (addToListpack (packInts ints) member).2.encoding=.listPack ∧ ints.size < 128 ∧
          member.length ≤ 64 ∨ (addToListpack (packInts ints) member).2.encoding=.hashTable := by
      intro hnew
      obtain htable | ⟨hpacked,hthere | hroom⟩ := addToListpack_encoding (packInts ints) member
      · exact .inr htable
      · exact absurd (hsame.mp hthere) hnew
      · exact .inl ⟨hpacked,hsize ▸ hroom⟩
    have hcontains := hok.contains_iff member
    rw [contains] at hcontains
    rw [SetValue.add]
    cases hparse : stringToInt64 member with
    | none =>
      rw [hparse] at hcontains
      dsimp only at hcontains ⊢
      split
      · exact .inr (.inr (.inr (addToTable_encoding _ _)))
      · obtain hpacked | htable := hpack fun hmem => by simpa using hcontains.mpr hmem
        · exact .inr (.inr (.inl ⟨hpacked.1,by simp [encoding],hpacked.2⟩))
        · exact .inr (.inr (.inr htable))
    | some value =>
      rw [hparse] at hcontains
      dsimp only at hcontains ⊢
      split
      · rename_i hin
        exact .inl ⟨hcontains.mp hin,rfl⟩
      · rename_i hout
        split
        · rename_i hroom
          exact .inr (.inl ⟨rfl,rfl,hroom⟩)
        · split
          · obtain hpacked | htable := hpack fun hmem => hout (hcontains.mpr hmem)
            · exact .inr (.inr (.inl ⟨hpacked.1,by simp [encoding],hpacked.2⟩))
            · exact .inr (.inr (.inr htable))
          · exact .inr (.inr (.inr (addToTable_encoding _ _)))

theorem erase_encoding (s : SetValue) (member : Bytes) :
    (s.erase member).2.encoding=s.encoding := by
  cases s with
  | hashTable table => rfl
  | intSet ints =>
    rw [SetValue.erase]
    split <;> rfl
  | listPack lp =>
    rw [SetValue.erase]
    split
    · rfl
    · split <;> rfl

theorem Ok.size_le (hok : s.Ok) {texts : List Bytes} (h : s.members ⊆ texts) :
    s.size ≤ texts.length := by
  rw [hok.size]
  exact (subperm_of_subset hok.nodup h).length_le

theorem Limited.subset {s s' : SetValue} (h : s.Limited) (hok : s'.Ok)
    (hencoding : s'.encoding=s.encoding) (hmembers : s'.members ⊆ s.members) : s'.Limited := by
  have hsize : s'.size ≤ s.size := by
    rw [h.ok.size]
    exact hok.size_le hmembers
  refine ⟨hok,?_⟩
  rw [Within,hencoding]
  refine ⟨fun hints => hsize.trans (h.within.1 hints),fun hpacked => ?_⟩
  obtain ⟨hfew,hshort⟩ := h.within.2 hpacked
  exact ⟨hsize.trans hfew,fun member hmem => hshort member (hmembers hmem)⟩

theorem Limited.short (h : s.Limited) (hform : s.encoding≠.hashTable) {member : Bytes}
    (hmem : member∈s.members) : member.length ≤ 64 := by
  cases s with
  | hashTable table => exact absurd rfl hform
  | listPack lp => exact (h.within.2 rfl).2 member hmem
  | intSet ints =>
    have hints : ints.Ok := h.ok
    obtain ⟨value,hvalue,rfl⟩ := mem_map.mp hmem
    exact (intDecimal_length (hints.fits64 hvalue)).trans (by decide)

theorem Limited.add (h : s.Limited) (member : Bytes) : (s.add member).2.Limited := by
  obtain ⟨hok,hmembers,-⟩ := h.ok.add member
  have hgrown : (s.add member).2.size ≤ s.size+1 := by
    rw [h.ok.size,←length_cons (a := member)]
    exact hok.size_le fun m hm => mem_cons.mpr ((hmembers m).mp hm)
  obtain ⟨hthere,hsame⟩ | ⟨hints,-,hroom⟩ | ⟨hpacked,hform,hroom,hshort⟩ | htable :=
    h.ok.add_encoding member
  · refine h.subset hok hsame fun m hm => ?_
    obtain rfl | hold := (hmembers m).mp hm
    · exact hthere
    · exact hold
  · refine ⟨hok,fun _ => hgrown.trans hroom,fun hpacked => ?_⟩
    rw [hints] at hpacked
    cases hpacked
  · refine ⟨hok,fun hints => ?_,fun _ => ⟨hgrown.trans hroom,fun m hm => ?_⟩⟩
    · rw [hpacked] at hints
      cases hints
    · obtain rfl | hold := (hmembers m).mp hm
      · exact hshort
      · exact h.short hform hold
  · refine ⟨hok,fun hints => ?_,fun hpacked => ?_⟩
    · rw [htable] at hints
      cases hints
    · rw [htable] at hpacked
      cases hpacked

theorem Limited.addAll (ms : List Bytes) (h : s.Limited) :
    (ms.foldl (fun copied member => (copied.add member).2) s).Limited := by
  induction ms generalizing s with
  | nil => exact h
  | cons m ms ih => exact ih (h.add m)

theorem empty_limited : empty.Limited :=
  ⟨empty_ok,fun _ => Nat.zero_le _,nofun⟩

theorem Limited.step (h : s.Limited) (op : Operation) : (op.step s).2.Limited := by
  cases op with
  | add member => exact h.add member
  | erase member =>
    obtain ⟨hok,hmembers,-⟩ := h.ok.erase member
    exact h.subset hok (erase_encoding s member) fun m hm => ((hmembers m).mp hm).2
  | copy => exact empty_limited.addAll s.members

theorem Limited.run (h : s.Limited) (ops : List Operation) : (s.run ops).Limited := by
  induction ops generalizing s with
  | nil => exact h
  | cons op ops ih => exact ih (h.step op)

theorem Ok.stage_step (hok : s.Ok) {op : Operation} (hop : op≠.copy) :
    s.encoding.stage ≤ (op.step s).2.encoding.stage := by
  cases op with
  | copy => exact absurd rfl hop
  | erase member => exact (congrArg ObjEncoding.stage (erase_encoding s member)).ge
  | add member =>
    change s.encoding.stage ≤ (s.add member).2.encoding.stage
    obtain ⟨-,hsame⟩ | ⟨hints,hwas,-⟩ | ⟨hpacked,hform,-⟩ | htable := hok.add_encoding member
    · rw [hsame]
    · rw [hints,hwas]
    · rw [hpacked]
      cases s with
      | hashTable table => exact absurd rfl hform
      | listPack lp => exact le_rfl
      | intSet ints => exact Nat.zero_le _
    · rw [htable]
      exact ObjEncoding.stage_le _

theorem Limited.stage_run (h : s.Limited) {ops : List Operation} (hops : .copy∉ops) :
    s.encoding.stage ≤ (s.run ops).encoding.stage := by
  induction ops generalizing s with
  | nil => exact le_rfl
  | cons op ops ih =>
    rw [mem_cons,not_or] at hops
    exact (h.ok.stage_step fun hcopy => hops.1 hcopy.symm).trans (ih (h.step op) hops.2)

end SetValue

namespace ZSetValue

/-- The invariant: a listpack stores few pairs with short members, whatever the scores are. -/
def Limited : ZSetValue → Prop
  | listPack lp => ∃ ps,lp.Holds (Listpack.stored ps) ∧ ps.length ≤ 128 ∧ ∀ e∈ps,e.1.length ≤ 64
  | skipList _ _ => True

theorem empty_limited : empty.Limited :=
  ⟨[],Listpack.holds_empty,Nat.zero_le _,nofun⟩

theorem addNode_encoding (list : SkipList ScoredMember) (scores : Dict Double) (member : Bytes)
    (score : Double) (draws : Draws) :
    (addNode list scores member score draws).2.1.encoding=.skipList := by
  rw [addNode]
  split
  · split <;> rfl
  · rfl

theorem limited_of_encoding {z : ZSetValue} (h : z.encoding=.skipList) : z.Limited := by
  cases z with
  | listPack lp => cases h
  | skipList list scores => trivial

theorem Limited.erase {z : ZSetValue} (h : z.Limited) (member : Bytes) :
    (z.erase member).2.Limited ∧ (z.erase member).2.encoding=z.encoding := by
  cases z with
  | skipList list scores =>
    rw [ZSetValue.erase]
    split <;> exact ⟨trivial,rfl⟩
  | listPack lp =>
    obtain ⟨ps,hholds,hfew,hshort⟩ := h
    rw [ZSetValue.erase]
    rw [hholds.find]
    obtain ⟨before,value,after,rfl,-,hfind⟩ | ⟨-,hfind⟩ := Listpack.findIn_stored member ps
    · obtain ⟨lp',herase,hholds'⟩ := hholds.erase_pair
      rw [hfind]
      dsimp only
      rw [herase]
      refine ⟨⟨_,hholds',?_,fun e he => ?_⟩,rfl⟩
      · rw [length_append,length_cons] at hfew
        rw [length_append]
        omega
      · exact hshort e (perm_middle.mem_iff.mpr (mem_cons_of_mem _ he))
    · rw [hfind]
      exact ⟨⟨ps,hholds,hfew,hshort⟩,rfl⟩

section Text

variable [FloatText]

/-- What a sequence of operations leaves, with the random draws to come. -/
def run (s : ZSetValue×Draws) (ops : List Operation) : ZSetValue×Draws :=
  ops.foldl (fun s op => (op.step s).2) s

def Within (z : ZSetValue) : Prop :=
  z.encoding=.listPack → z.size ≤ 128 ∧ ∀ e∈z.all,e.1.length ≤ 64

theorem Limited.within {z : ZSetValue} (h : z.Limited) : z.Within := by
  cases z with
  | skipList list scores => exact nofun
  | listPack lp =>
    obtain ⟨ps,hholds,hfew,hshort⟩ := h
    refine fun _ => ⟨?_,fun e he => ?_⟩
    · rw [size,hholds.numElements,Listpack.stored_length]
      omega
    · rw [all,hholds.toStrings,Listpack.stored,Listpack.map_toString_elementOf,
        pairUp_flatPairs] at he
      obtain ⟨p,hp,rfl⟩ := mem_map.mp he
      exact hshort p hp

theorem insertPacked_limited (exact : FloatText.Exact) {lp : Listpack}
    {ps : List (Dict.Entry Bytes)} (hholds : lp.Holds (Listpack.stored ps)) (hroom : ps.length < 128)
    (hshort : ∀ e∈ps,e.1.length ≤ 64) {member : Bytes} (hmember : member.length ≤ 64)
    (score : Double) : (listPack (insertPacked lp member score)).Limited := by
  obtain ⟨ps₁,ps₂,rfl,hholds',-⟩ :=
    insertPacked_split exact hholds score (hmember.trans_lt (by decide))
  refine ⟨_,hholds',?_,fun e he => ?_⟩
  · rw [length_append] at hroom
    rw [length_append,length_cons]
    omega
  · obtain rfl | he := mem_cons.mp (perm_middle.mem_iff.mp he)
    · exact hmember
    · exact hshort e he

theorem Limited.add (exact : FloatText.Exact) {z : ZSetValue} (h : z.Limited) (member : Bytes)
    (score : Double) (draws : Draws) :
    (z.add member score draws).2.1.Limited ∧
      z.encoding.stage ≤ (z.add member score draws).2.1.encoding.stage := by
  cases z with
  | skipList list scores =>
    have hform := addNode_encoding list scores member score draws
    exact ⟨limited_of_encoding hform,(congrArg ObjEncoding.stage hform).ge⟩
  | listPack lp =>
    obtain ⟨ps,hholds,hfew,hshort⟩ := h
    rw [ZSetValue.add]
    dsimp only
    rw [hholds.find]
    obtain ⟨before,value,after,rfl,-,hfind⟩ | ⟨-,hfind⟩ := Listpack.findIn_stored member ps
    · obtain ⟨lp',herase,hholds'⟩ := hholds.erase_pair
      rw [hfind]
      dsimp only
      rw [herase,Option.getD_some]
      have hall : ∀ e∈(⟨member,value⟩ : Dict.Entry Bytes)::(before++after),e.1.length ≤ 64 :=
        fun e he => hshort e (perm_middle.mem_iff.mpr he)
      refine ⟨insertPacked_limited exact hholds' ?_ (fun e he => ?_) (hall _ mem_cons_self)
        score,le_rfl⟩
      · rw [length_append,length_cons] at hfew
        rw [length_append]
        omega
      · exact hall e (mem_cons_of_mem _ he)
    · rw [hfind]
      dsimp only
      split
      · have hform := addNode_encoding (toSkipList lp draws).1.1 (toSkipList lp draws).1.2 member
          score (toSkipList lp draws).2
        refine ⟨limited_of_encoding hform,?_⟩
        rw [hform]
        exact ObjEncoding.stage_le _
      · rename_i hroom
        simp only [Bool.or_eq_true,decide_eq_true_eq,not_or,not_le,not_lt] at hroom
        rw [size,hholds.numElements,Listpack.stored_length] at hroom
        have hlimit : defaultLimits.zsetMaxListpackEntries=128 := rfl
        exact ⟨insertPacked_limited exact hholds (by omega) hshort hroom.2 score,le_rfl⟩

variable {s : ZSetValue×Draws}

theorem Limited.addAll (exact : FloatText.Exact) (es : List (Bytes×Double)) (h : s.1.Limited) :
    (ZSetValue.addAll es s).1.Limited := by
  induction es generalizing s with
  | nil => exact h
  | cons e es ih => exact ih (h.add exact e.1 e.2 s.2).1

theorem Limited.step (exact : FloatText.Exact) (h : s.1.Limited) (op : Operation) :
    (op.step s).2.1.Limited := by
  cases op with
  | add member score => exact (h.add exact member score s.2).1
  | erase member => exact (h.erase member).1
  | copy => exact empty_limited.addAll exact s.1.all

theorem Limited.run (exact : FloatText.Exact) (h : s.1.Limited) (ops : List Operation) :
    (ZSetValue.run s ops).1.Limited := by
  induction ops generalizing s with
  | nil => exact h
  | cons op ops ih => exact ih (h.step exact op)

theorem Limited.stage_run (exact : FloatText.Exact) (h : s.1.Limited) {ops : List Operation}
    (hops : .copy∉ops) :
    s.1.encoding.stage ≤ (ZSetValue.run s ops).1.encoding.stage := by
  induction ops generalizing s with
  | nil => exact le_rfl
  | cons op ops ih =>
    rw [mem_cons,not_or] at hops
    refine le_trans ?_ (ih (h.step exact op) hops.2)
    cases op with
    | copy => exact absurd rfl hops.1
    | add member score => exact (h.add exact member score s.2).2
    | erase member => exact (congrArg ObjEncoding.stage (h.erase member).2).ge

end Text

end ZSetValue

/-- **Thresholds**: after every sequence of operations a compact set or sorted set is inside the
limits of its form, and stretches without a copy never lead back to a more compact form. -/
theorem encoding_thresholds [FloatText] (exact : FloatText.Exact) :
    (∀ ops,(SetValue.empty.run ops).Within ∧
      ∀ before after,ops=before++after → .copy∉after →
        (SetValue.empty.run before).encoding.stage ≤ (SetValue.empty.run ops).encoding.stage) ∧
    ∀ ops draws,(ZSetValue.run (.empty,draws) ops).1.Within ∧
      ∀ before after,ops=before++after → .copy∉after →
        (ZSetValue.run (.empty,draws) before).1.encoding.stage ≤
          (ZSetValue.run (.empty,draws) ops).1.encoding.stage := by
  constructor
  · intro ops
    refine ⟨(SetValue.empty_limited.run ops).within,?_⟩
    rintro before after rfl hcopy
    have happend : SetValue.empty.run (before++after)=(SetValue.empty.run before).run after :=
      foldl_append
    rw [happend]
    exact (SetValue.empty_limited.run before).stage_run hcopy
  · intro ops draws
    have hstart : (ZSetValue.empty,draws).1.Limited := ZSetValue.empty_limited
    refine ⟨(hstart.run exact ops).within,?_⟩
    rintro before after rfl hcopy
    have happend : ZSetValue.run (.empty,draws) (before++after)=
        ZSetValue.run (ZSetValue.run (.empty,draws) before) after := foldl_append
    rw [happend]
    exact (hstart.run exact before).stage_run exact hcopy

section Witness

attribute [local instance] DoubleText.reference

theorem encoding_thresholds_text :
    FloatText.Exact ∧ (SetValue.empty.run [.add (ascii "1"),.add (ascii "a")]).encoding=.listPack ∧
      1 ≤ (SetValue.empty.run [.add (ascii "1"),.add (ascii "a"),
        .erase (ascii "a")]).encoding.stage := by
  have hpacked : (SetValue.empty.run [.add (ascii "1"),.add (ascii "a")]).encoding=.listPack := by
    decide +kernel
  have hkept := ((encoding_thresholds DoubleText.reference_exact).1
    [.add (ascii "1"),.add (ascii "a"),.erase (ascii "a")]).2 [.add (ascii "1"),.add (ascii "a")]
    [.erase (ascii "a")] rfl (by simp)
  rw [hpacked] at hkept
  exact ⟨DoubleText.reference_exact,hpacked,hkept⟩

end Witness

end Mnemos
