import Mathlib.Data.List.TakeWhile
import Mathlib.Data.Stream.Init
import Mnemos.Ascending
import Mnemos.Collections
import Mnemos.Double
import Mnemos.SkipListItems

/-!
# The order of a sorted set

Pairs of score and member are ordered by score and then by the bytes of the
member.
-/

namespace Mnemos

open List

abbrev ScoredMember := Double×Bytes

instance : Inhabited ScoredMember := ⟨(.zero,[])⟩

def isBefore (a b : ScoredMember) : Bool :=
  if a.1.eq b.1 then decide (a.2 < b.2) else a.1.lt b.1

def isPair (item x : ScoredMember) : Bool := x.1.eq item.1 && x.2==item.2

def place (x : ScoredMember) : ℤ×Bytes := (x.1.key,x.2)

def Earlier (a b : ℤ×Bytes) : Prop := a.1 < b.1 ∨ a.1=b.1 ∧ a.2 < b.2

theorem Earlier.irrefl (a : ℤ×Bytes) : ¬Earlier a a := Precedes.irrefl a

theorem Earlier.trans {a b c : ℤ×Bytes} (hab : Earlier a b) (hbc : Earlier b c) : Earlier a c :=
  Precedes.trans hab hbc

theorem Earlier.total {a b : ℤ×Bytes} (h : a≠b) : Earlier a b ∨ Earlier b a := Precedes.total h

variable {xs ys zs : List ScoredMember} {item x a b : ScoredMember}

theorem isBefore_iff (ha : a.1.isNaN=false) (hb : b.1.isNaN=false) :
    isBefore a b=true ↔ Earlier (place a) (place b) := by
  rw [isBefore,Earlier,place,place]
  dsimp only
  split
  · rename_i heq
    rw [decide_eq_true_eq,(Double.eq_iff ha hb).mp heq]
    simp
  · rename_i hne
    rw [Double.eq_iff ha hb] at hne
    rw [Double.lt_iff ha hb]
    simp [hne]

theorem isBefore_eq_false_iff (ha : a.1.isNaN=false) (hb : b.1.isNaN=false) :
    isBefore a b=false ↔ ¬Earlier (place a) (place b) := by
  rw [← isBefore_iff ha hb,Bool.not_eq_true]

theorem behind_eq (newScore existing : Double) (member existingMember : Bytes) :
    (newScore.lt existing || existing.eq newScore && decide (member < existingMember))=
      isBefore (newScore,member) (existing,existingMember) := by
  rw [isBefore]
  dsimp only
  rw [Double.eq_comm existing]
  split
  · rename_i heq
    obtain ⟨hnew,hold,hkey⟩ := Double.eq_spec heq
    have hlt : newScore.lt existing=false := by
      rw [← Bool.not_eq_true,Double.lt_iff hnew hold,hkey]
      exact lt_irrefl _
    rw [hlt,heq]
    simp
  · rename_i hne
    rw [Bool.not_eq_true] at hne
    rw [hne]
    simp

/-- Ascending pairs of numbers and distinct members. -/
structure Listing (xs : List ScoredMember) : Prop where
  numbers : ∀ x∈xs,x.1.isNaN=false
  ascending : xs.Pairwise fun a b => Earlier (place a) (place b)
  distinct : (xs.map Prod.snd).Nodup

theorem listing_nil : Listing [] := ⟨nofun,.nil,.nil⟩

theorem Listing.sublist {xs ys : List ScoredMember} (h : Listing ys) (hsub : xs.Sublist ys) :
    Listing xs :=
  ⟨fun x hx => h.numbers x (hsub.subset hx),h.ascending.sublist hsub,
    h.distinct.sublist (hsub.map Prod.snd)⟩

theorem Listing.split (h : Listing xs) (hitem : item.1.isNaN=false) :
    ∃ ys zs,xs=ys++zs ∧ (∀ y∈ys,isBefore y item=true) ∧ ∀ z∈zs,isBefore z item=false := by
  refine ⟨xs.takeWhile (isBefore · item),xs.dropWhile (isBefore · item),
    takeWhile_append_dropWhile.symm,
    fun y hy => mem_takeWhile_imp (p := (isBefore · item)) hy,?_⟩
  have hsub := dropWhile_sublist (l := xs) (isBefore · item)
  have hlisting := h.sublist hsub
  have hhead := head?_dropWhile_not (isBefore · item) xs
  revert hlisting hhead
  generalize xs.dropWhile (isBefore · item)=zs
  intro hlisting hhead
  cases zs with
  | nil => exact nofun
  | cons z zs =>
    have hz : isBefore z item=false := by simpa using hhead
    refine forall_mem_cons.mpr ⟨hz,fun x hx => ?_⟩
    have hzn := hlisting.numbers z mem_cons_self
    have hxn := hlisting.numbers x (mem_cons_of_mem _ hx)
    rw [isBefore_eq_false_iff hzn hitem] at hz
    rw [isBefore_eq_false_iff hxn hitem]
    exact fun hlt => hz (((pairwise_cons.mp hlisting.ascending).1 x hx).trans hlt)

theorem Listing.insert (h : Listing (ys++zs)) (hitem : item.1.isNaN=false)
    (hnew : item.2∉(ys++zs).map Prod.snd) (hys : ∀ y∈ys,isBefore y item=true)
    (hzs : ∀ z∈zs,isBefore z item=false) :
    Listing (ys++item::zs) := by
  have hperm : (ys++item::zs).Perm (item::(ys++zs)) := perm_middle
  refine ⟨fun x hx => ?_,?_,?_⟩
  · rcases mem_cons.mp (hperm.mem_iff.mp hx) with rfl | hx
    · exact hitem
    · exact h.numbers x hx
  · rw [pairwise_append,pairwise_cons]
    obtain ⟨h₁,h₂,h₃⟩ := pairwise_append.mp h.ascending
    have hbehind : ∀ z∈zs,Earlier (place item) (place z) := by
      intro z hz
      have hzn := h.numbers z (mem_append_right _ hz)
      have hne : place item≠place z := by
        intro heq
        refine hnew (mem_map.mpr ⟨z,mem_append_right _ hz,?_⟩)
        exact (congrArg Prod.snd heq).symm
      rcases Earlier.total hne with hlt | hgt
      · exact hlt
      · exact absurd hgt ((isBefore_eq_false_iff hzn hitem).mp (hzs z hz))
    refine ⟨h₁,⟨hbehind,h₂⟩,fun y hy x hx => ?_⟩
    rcases mem_cons.mp hx with rfl | hx
    · exact (isBefore_iff (h.numbers y (mem_append_left _ hy)) hitem).mp (hys y hy)
    · exact h₃ y hy x hx
  · rw [(hperm.map Prod.snd).nodup_iff,map_cons,nodup_cons]
    exact ⟨hnew,h.distinct⟩

theorem Listing.places_eq {xs ys : List ScoredMember} (hx : Listing xs) (hy : Listing ys)
    (h : ∀ p,p∈xs.map place ↔ p∈ys.map place) : xs.map place=ys.map place := by
  have hsorted : ∀ {zs : List ScoredMember},Listing zs → (zs.map place).Pairwise Earlier :=
    fun hz => pairwise_map.mpr hz.ascending
  have hnodup : ∀ {zs : List ScoredMember},Listing zs → (zs.map place).Nodup := by
    refine fun hz => (hsorted hz).imp ?_
    rintro a b hlt rfl
    exact Earlier.irrefl a hlt
  refine ((perm_ext_iff_of_nodup (hnodup hx) (hnodup hy)).mpr h).eq_of_pairwise ?_
    (hsorted hx) (hsorted hy)
  intro a b _ _ hab hba
  exact absurd (hab.trans hba) (Earlier.irrefl a)

def scoreIn (xs : List ScoredMember) (member : Bytes) : Option Double :=
  (xs.find? (·.2==member)).map Prod.fst

theorem Listing.scoreIn_iff (h : Listing xs) {member : Bytes} {s : Double} :
    scoreIn xs member=some s ↔ (s,member)∈xs := by
  rw [scoreIn,Option.map_eq_some_iff]
  constructor
  · rintro ⟨⟨s',member'⟩,hfind,rfl⟩
    have hmember := find?_some hfind
    rw [beq_iff_eq] at hmember
    dsimp only at hmember
    rw [← hmember]
    exact mem_of_find?_eq_some hfind
  · intro hmem
    cases hfind : xs.find? (·.2==member) with
    | none => exact absurd (beq_self_eq_true member) (by simpa using find?_eq_none.mp hfind _ hmem)
    | some x =>
      refine ⟨x,rfl,?_⟩
      have hmember := find?_some hfind
      rw [beq_iff_eq] at hmember
      have hsame := inj_on_of_nodup_map h.distinct (mem_of_find?_eq_some hfind) hmem hmember
      rw [hsame]

theorem scoreIn_eq_none {member : Bytes} :
    scoreIn xs member=none ↔ member∉xs.map Prod.snd := by
  rw [scoreIn,Option.map_eq_none_iff,find?_eq_none,mem_map]
  simp only [beq_iff_eq,not_exists,not_and]

theorem Listing.drop (h : Listing (ys++x::zs)) :
    Listing (ys++zs) ∧ x.2∉(ys++zs).map Prod.snd := by
  have hsub : (ys++zs).Sublist (ys++x::zs) := (sublist_cons_self x zs).append_left ys
  refine ⟨h.sublist hsub,?_⟩
  have hperm : (ys++x::zs).Perm (x::(ys++zs)) := perm_middle
  have hnodup := ((hperm.map Prod.snd).nodup_iff).mp h.distinct
  exact (nodup_cons.mp hnodup).1

theorem Listing.around (h : Listing (ys++x::zs)) :
    (∀ y∈ys,isBefore y x=true) ∧ (∀ z∈x::zs,isBefore z x=false) ∧
      ∀ z∈zs,isBefore x z=true := by
  have hx := h.numbers x (by simp)
  obtain ⟨-,hxzs,hyxzs⟩ := pairwise_append.mp h.ascending
  refine ⟨fun y hy => ?_,?_,fun z hz => ?_⟩
  · rw [isBefore_iff (h.numbers y (by simp [hy])) hx]
    exact hyxzs y hy x mem_cons_self
  · refine forall_mem_cons.mpr ⟨(isBefore_eq_false_iff hx hx).mpr (Earlier.irrefl _),?_⟩
    intro z hz
    rw [isBefore_eq_false_iff (h.numbers z (by simp [hz])) hx]
    exact fun hlt => Earlier.irrefl _ (((pairwise_cons.mp hxzs).1 z hz).trans hlt)
  · rw [isBefore_iff hx (h.numbers z (by simp [hz]))]
    exact (pairwise_cons.mp hxzs).1 z hz

theorem Listing.insert_between (h : Listing (ys++zs)) (hitem : item.1.isNaN=false)
    (hnew : item.2∉(ys++zs).map Prod.snd) (hys : ∀ y∈ys,isBefore item y=false)
    (hzs : ∀ z,zs.head?=some z → isBefore item z=true) :
    Listing (ys++item::zs) := by
  refine h.insert hitem hnew (fun y hy => ?_) ?_
  · have hmem := mem_append_left zs hy
    have hyn := h.numbers y hmem
    have hne : place y≠place item := by
      intro heq
      have hmember : y.2=item.2 := (Prod.ext_iff.mp heq).2
      exact hnew (mem_map.mpr ⟨y,hmem,hmember⟩)
    rw [isBefore_iff hyn hitem]
    exact (Earlier.total hne).resolve_right ((isBefore_eq_false_iff hitem hyn).mp (hys y hy))
  · cases zs with
    | nil => exact nofun
    | cons first zs =>
      have hfn := h.numbers first (by simp)
      have hfirst := (isBefore_iff hitem hfn).mp (hzs first rfl)
      have hbehind : ∀ z∈first::zs,Earlier (place item) (place z) := by
        refine forall_mem_cons.mpr ⟨hfirst,fun z hz => hfirst.trans ?_⟩
        exact (pairwise_cons.mp (pairwise_append.mp h.ascending).2.1).1 z hz
      intro z hz
      rw [isBefore_eq_false_iff (h.numbers z (mem_append_right _ hz)) hitem]
      exact fun hlt => Earlier.irrefl _ ((hbehind z hz).trans hlt)

def numbersIn (xs : List ScoredMember) : List ScoredMember := xs.filter (!·.1.isNaN)

theorem numbersIn_eq_self (h : ∀ x∈xs,x.1.isNaN=false) :
    numbersIn xs=xs := filter_eq_self.mpr fun x hx => by rw [h x hx]; rfl

theorem isBefore_numbers (h : isBefore a b=true) :
    a.1.isNaN=false ∧ b.1.isNaN=false := by
  rw [isBefore] at h
  split at h
  · rename_i heq
    exact ⟨(Double.eq_spec heq).1,(Double.eq_spec heq).2.1⟩
  · unfold Double.lt at h
    simp only [Bool.and_eq_true,Bool.not_eq_true'] at h
    exact h.1

theorem Listing.insert_numbers (h : Listing (numbersIn (ys++zs)))
    (hnew : item.2∉(ys++zs).map Prod.snd) (hys : ∀ y∈ys,isBefore item y=false)
    (hzs : ∀ z,zs.head?=some z → isBefore item z=true) :
    Listing (numbersIn (ys++item::zs)) := by
  have happend : numbersIn (ys++zs)=numbersIn ys++numbersIn zs := filter_append ys zs
  have hsplit : numbersIn (ys++item::zs)=numbersIn ys++numbersIn (item::zs) :=
    filter_append ys (item::zs)
  rw [happend] at h
  rw [hsplit]
  by_cases hitem : item.1.isNaN=false
  · have hcons : numbersIn (item::zs)=item::numbersIn zs :=
      filter_cons_of_pos (by rw [hitem]; rfl)
    rw [hcons]
    refine h.insert_between hitem (fun hmem => hnew ?_) (fun y hy => hys y (mem_of_mem_filter hy))
      (fun z hz => ?_)
    · rw [← happend] at hmem
      exact (filter_sublist.map Prod.snd).subset hmem
    · -- the first pair behind the new one is a number, so the filter keeps it in front
      cases zs with
      | nil => cases hz
      | cons first zs =>
        have hfirst := hzs first rfl
        have hkeep : numbersIn (first::zs)=first::numbersIn zs :=
          filter_cons_of_pos (by rw [(isBefore_numbers hfirst).2]; rfl)
        rw [hkeep] at hz
        cases hz
        exact hfirst
  · have hcons : numbersIn (item::zs)=numbersIn zs :=
      filter_cons_of_neg (by simpa using hitem)
    rw [hcons]
    exact h

theorem mem_places_insert {p : ℤ×Bytes} (hnew : item.2∉(ys++zs).map Prod.snd) :
    p∈(ys++item::zs).map place ↔ p=place item ∨ p∈(ys++zs).map place ∧ p.2≠item.2 := by
  have hother : p∈(ys++zs).map place → p.2≠item.2 := by
    rintro hp heq
    obtain ⟨x,hx,rfl⟩ := mem_map.mp hp
    exact hnew (mem_map.mpr ⟨x,hx,heq⟩)
  rw [(perm_middle.map place).mem_iff,map_cons,mem_cons]
  exact or_congr_right ⟨fun hp => ⟨hp,hother hp⟩,fun hp => hp.1⟩

theorem Listing.mem_places_drop {p : ℤ×Bytes} (h : Listing (ys++x::zs)) :
    p∈(ys++zs).map place ↔ p∈(ys++x::zs).map place ∧ p.2≠x.2 := by
  rw [mem_places_insert h.drop.2]
  constructor
  · rintro hp
    refine ⟨.inr ⟨hp,?_⟩,?_⟩
    all_goals
      intro heq
      obtain ⟨y,hy,rfl⟩ := mem_map.mp hp
      exact h.drop.2 (mem_map.mpr ⟨y,hy,heq⟩)
  · rintro ⟨rfl | ⟨hp,-⟩,hne⟩
    · exact absurd rfl hne
    · exact hp

theorem scoreIn_insert (hlisting : Listing (ys++item::zs)) (m : Bytes) :
    scoreIn (ys++item::zs) m=if m=item.2 then some item.1 else scoreIn (ys++zs) m := by
  split
  · rename_i hm
    rw [hlisting.scoreIn_iff,hm]
    simp
  · rename_i hm
    refine Option.ext fun s => ?_
    rw [hlisting.scoreIn_iff,hlisting.drop.1.scoreIn_iff,perm_middle.mem_iff,mem_cons]
    refine or_iff_right fun heq => hm ?_
    rw [← heq]

def rankIn (xs : List ScoredMember) (member : Bytes) : Option ℕ := xs.findIdx? (·.2==member)

theorem rankIn_eq {ys : List ScoredMember} (zs : List ScoredMember) (h : x.2∉ys.map Prod.snd) :
    rankIn (ys++x::zs) x.2=some ys.length := by
  have hnone : ys.findIdx? (·.2==x.2)=none := by
    rw [findIdx?_eq_none_iff]
    intro y hy
    rw [beq_eq_false_iff_ne]
    exact fun heq => h (mem_map.mpr ⟨y,hy,heq⟩)
  rw [rankIn,findIdx?_append,hnone,findIdx?_cons,if_pos (beq_self_eq_true x.2)]
  simp

abbrev Draws := Stream' ℕ

/-- The loop of `randomLevel`; a draw is made before the level is compared with its limit. -/
def levelLoop : ℕ → Draws → ℕ×Draws
  | 0,draws => (SkipList.maxLevel,draws.tail)
  | room+1,draws =>
    if draws.head&&&0xFFFF < 16383 then levelLoop room draws.tail
    else (SkipList.maxLevel-(room+1),draws.tail)

def randomLevel (draws : Draws) : ℕ×Draws := levelLoop (SkipList.maxLevel-1) draws

theorem levelLoop_bounds {room : ℕ} (h : room < SkipList.maxLevel) (draws : Draws) :
    0 < (levelLoop room draws).1 ∧ (levelLoop room draws).1 ≤ SkipList.maxLevel := by
  induction room generalizing draws with
  | zero => exact ⟨show 0 < SkipList.maxLevel by decide,le_rfl⟩
  | succ room ih =>
    rw [levelLoop]
    split
    · exact ih (by omega) _
    · dsimp only
      omega

theorem randomLevel_bounds (draws : Draws) :
    0 < (randomLevel draws).1 ∧ (randomLevel draws).1 ≤ SkipList.maxLevel :=
  levelLoop_bounds (by decide) draws

end Mnemos

/-! ## Sorted sets -/

namespace Mnemos

open scoped List

/-- Actual `ZSetValue`. The source keeps all three containers and leaves those that the encoding
does not name empty. -/
inductive ZSetValue where
  | listPack (lp : Listpack)
  | skipList (list : SkipList ScoredMember) (scores : Dict Double)

structure ScoreRange where
  min : Double
  max : Double
  minExclusive : Bool
  maxExclusive : Bool

def ScoreRange.isEmpty (r : ScoreRange) : Bool :=
  r.max.lt r.min || r.min.eq r.max && (r.minExclusive || r.maxExclusive)

def ScoreRange.containsScore (r : ScoreRange) (score : Double) : Bool :=
  !(if r.minExclusive then score.le r.min else score.lt r.min) &&
    !(if r.maxExclusive then r.max.le score else r.max.lt score)

inductive LexBound where
  | negInf
  | value (bytes : Bytes) (exclusive : Bool)
  | posInf
deriving DecidableEq,Repr

structure LexRange where
  min : LexBound
  max : LexBound
deriving DecidableEq,Repr

def LexRange.aboveMin (r : LexRange) (member : Bytes) : Bool :=
  match r.min with
  | .negInf => true
  | .posInf => false
  | .value bound exclusive => if exclusive then bound < member else bound ≤ member

def LexRange.belowMax (r : LexRange) (member : Bytes) : Bool :=
  match r.max with
  | .posInf => true
  | .negInf => false
  | .value bound exclusive => if exclusive then member < bound else member ≤ bound

def LexRange.isEmpty (r : LexRange) : Bool :=
  match r.min,r.max with
  | .posInf,_ => true
  | _,.negInf => true
  | .value low lowExclusive,.value high highExclusive =>
    high < low || low==high && (lowExclusive || highExclusive)
  | _,_ => false

namespace ZSetValue

def empty : ZSetValue := .listPack .empty

def encoding : ZSetValue → ObjEncoding
  | listPack _ => .listPack
  | skipList _ _ => .skipList

def size : ZSetValue → ℕ
  | listPack lp => lp.numElements/2
  | skipList _ scores => scores.size

section Text

variable [FloatText]

open FloatText

def elementScore : Element → Double
  | .integer n => ofInt n
  | .string s => strtod s

def score (z : ZSetValue) (member : Bytes) : Option Double :=
  match z with
  | skipList _ scores => scores.peek member
  | listPack lp =>
    match lp.find member 0 2 with
    | none => none
    | some index => (lp.get (index+1)).map elementScore

def insertNode (list : SkipList ScoredMember) (item : ScoredMember) (draws : Draws) :
    SkipList ScoredMember×Draws :=
  (list.insert (isBefore · item) item (randomLevel draws).1,(randomLevel draws).2)

def removeNode (list : SkipList ScoredMember) (item : ScoredMember) : SkipList ScoredMember :=
  (list.remove (isBefore · item) (isPair item)).2

def convertLoop : List (Dict.Entry Bytes) → SkipList ScoredMember → Dict Double → Draws →
    (SkipList ScoredMember×Dict Double)×Draws
  | [],list,scores,draws => ((list,scores),draws)
  | e::rest,list,scores,draws =>
    let item := (strtod e.2,e.1)
    let (list,draws) := insertNode list item draws
    convertLoop rest list (scores.insert item.2 item.1).1 draws

/-- The skip list and the scores that `convertToSkipList` fills. -/
def toSkipList (lp : Listpack) (draws : Draws) : (SkipList ScoredMember×Dict Double)×Draws :=
  convertLoop (pairUp lp.toStrings) .empty .init draws

def convertToSkipList (z : ZSetValue) (draws : Draws) : ZSetValue×Draws :=
  match z with
  | skipList list scores => (skipList list scores,draws)
  | listPack lp =>
    let ((list,scores),draws) := toSkipList lp draws
    (skipList list scores,draws)

def longestMember (es : List Element) : ℕ :=
  (pairUp es).foldl (fun longest p =>
    match p.1 with
    | .integer _ => longest
    | .string s => max longest s.length) 0

def adoptListpack (lp : Listpack) (draws : Draws) : Option (ZSetValue×Draws) :=
  if lp.numElements%2≠0 then none
  else if defaultLimits.zsetMaxListpackEntries < lp.numElements/2 ||
      defaultLimits.zsetMaxListpackValue < longestMember lp.elements then
    some (convertToSkipList (listPack lp) draws)
  else some (listPack lp,draws)

def insertPosition (lp : Listpack) (member : Bytes) (newScore : Double) : ℕ → ℕ → ℕ
  | 0,_ => lp.numElements
  | fuel+1,i =>
    if i < lp.numElements then
      match lp.get i,lp.get (i+1) with
      | some memberElement,some scoreElement =>
        let existing := elementScore scoreElement
        let existingMember := memberElement.toString
        if newScore.lt existing || existing.eq newScore && decide (member < existingMember) then i
        else insertPosition lp member newScore fuel (i+2)
      | _,_ => lp.numElements
    else lp.numElements

def insertPacked (lp : Listpack) (member : Bytes) (newScore : Double) : Listpack :=
  let at_ := insertPosition lp member newScore lp.numElements 0
  let lp := (lp.insertAt at_ member).getD lp
  (lp.insertAt (at_+1) (d2string newScore)).getD lp

def addNode (list : SkipList ScoredMember) (scores : Dict Double) (member : Bytes)
    (newScore : Double) (draws : Draws) : Bool×ZSetValue×Draws :=
  match scores.find member with
  | (some oldScore,scores) =>
    if oldScore.eq newScore then (false,skipList list scores,draws)
    else
      let (list,draws) := insertNode (removeNode list (oldScore,member)) (newScore,member) draws
      (false,skipList list (scores.insert member newScore).1,draws)
  | (none,scores) =>
    let (list,draws) := insertNode list (newScore,member) draws
    (true,skipList list (scores.insert member newScore).1,draws)

def add (z : ZSetValue) (member : Bytes) (newScore : Double) (draws : Draws) :
    Bool×ZSetValue×Draws :=
  match z with
  | skipList list scores => addNode list scores member newScore draws
  | listPack lp =>
    match lp.find member 0 2 with
    | some index =>
      (false,listPack (insertPacked ((lp.eraseRange index 2).getD lp) member newScore),draws)
    | none =>
      if defaultLimits.zsetMaxListpackEntries ≤ (listPack lp).size ||
          defaultLimits.zsetMaxListpackValue < member.length then
        let ((list,scores),draws) := toSkipList lp draws
        addNode list scores member newScore draws
      else (true,listPack (insertPacked lp member newScore),draws)

def erase (z : ZSetValue) (member : Bytes) : Bool×ZSetValue :=
  match z with
  | listPack lp =>
    match lp.find member 0 2 with
    | none => (false,listPack lp)
    | some index =>
      match lp.eraseRange index 2 with
      | none => (false,listPack lp)
      | some lp => (true,listPack lp)
  | skipList list scores =>
    match scores.find member with
    | (none,scores) => (false,skipList list scores)
    | (some existing,scores) =>
      (true,skipList (removeNode list (existing,member)) (scores.erase member).1)

def rank (z : ZSetValue) (member : Bytes) : Option ℕ :=
  match z with
  | skipList list scores =>
    match scores.peek member with
    | none => none
    | some found =>
      list.rankOf (fun x => !isBefore (found,member) x) (isPair (found,member))
  | listPack lp => (lp.find member 0 2).map (·/2)

def all : ZSetValue → List (Bytes×Double)
  | listPack lp => (pairUp lp.toStrings).map fun e => (e.1,strtod e.2)
  | skipList list _ => list.items.map Prod.swap

def range (z : ZSetValue) (start stop : ℕ) : List (Bytes×Double) :=
  let everything := z.all
  if everything.length ≤ start then []
  else (everything.take (min stop (everything.length-1)+1)).drop start

def addAll (es : List (Bytes×Double)) (start : ZSetValue×Draws) : ZSetValue×Draws :=
  es.foldl (fun z e => (z.1.add e.1 e.2 z.2).2) start

def copy (z : ZSetValue) (draws : Draws) : ZSetValue×Draws := addAll z.all (empty,draws)

end Text

end ZSetValue

/-! ## Ranges of a sorted set -/

namespace ScoreRange

def below (r : ScoreRange) (score : Double) : Bool :=
  if r.minExclusive then score.le r.min else score.lt r.min

def reaches (r : ScoreRange) (score : Double) : Bool :=
  if r.minExclusive then r.min.lt score else r.min.le score

def above (r : ScoreRange) (score : Double) : Bool :=
  if r.maxExclusive then r.max.le score else r.max.lt score

end ScoreRange

/-- The end of `firstInRange`: the node behind the path, unless it is above the range. -/
def nextInRange (list : SkipList ScoredMember) (r : ScoreRange) : Option ℕ :=
  let stop := ((list.path fun x => !r.reaches x.1).getD 0 (SkipList.header,0)).1
  match (SkipList.levelAt list.nodes stop 0).forward with
  | none => none
  | some node => if r.above (list.nodes node).item.1 then none else some node

def firstInRange (list : SkipList ScoredMember) (r : ScoreRange) : Option ℕ :=
  if r.isEmpty || list.length=0 then none
  else
    match list.tail with
    | none => none
    | some tail => if r.below (list.nodes tail).item.1 then none else nextInRange list r

/-- The loop of `rangeByLex` on the pairs: skip to the first member that is not below the range. -/
def lexRun (r : LexRange) (everything : List (Bytes×Double)) : List (Bytes×Double) :=
  (everything.dropWhile fun e => !r.aboveMin e.1).takeWhile fun e => r.belowMax e.1

namespace ZSetValue

variable [FloatText]

def pairsFrom (list : SkipList ScoredMember) : Option ℕ → List (Bytes×Double)
  | none => []
  | some node =>
    (node::SkipList.walk list.nodes list.length node).map fun x => (list.nodes x).item.swap

def rangeByScore (z : ZSetValue) (r : ScoreRange) : List (Bytes×Double) :=
  if r.isEmpty then []
  else
    match z with
    | skipList list _ =>
      (pairsFrom list (firstInRange list r)).takeWhile fun e => r.containsScore e.2
    | listPack lp => (listPack lp).all.filter fun e => r.containsScore e.2

def rangeByLex (z : ZSetValue) (r : LexRange) : List (Bytes×Double) :=
  if r.isEmpty then [] else lexRun r z.all

end ZSetValue

end Mnemos

/-! ## Sorted sets as ascending sequences -/

namespace Mnemos.ZSetValue

open FloatText

open List

variable {ps : List (Dict.Entry Bytes)} {list : SkipList ScoredMember} {z : ZSetValue}
  {lp : Listpack} {xs : List ScoredMember}

theorem insertNode_spec (item : ScoredMember) (hholds : list.Holds xs) (hlisting : Listing xs)
    (hitem : item.1.isNaN=false) (hnew : item.2∉xs.map Prod.snd) (draws : Draws) :
    ∃ ys zs,xs=ys++zs ∧ (insertNode list item draws).1.Holds (ys++item::zs) ∧
      Listing (ys++item::zs) := by
  obtain ⟨ys,zs,rfl,hys,hzs⟩ := hlisting.split hitem
  obtain ⟨hpos,hmax⟩ := randomLevel_bounds draws
  exact ⟨ys,zs,rfl,hholds.insert_at item hpos hmax hys hzs,hlisting.insert hitem hnew hys hzs⟩

theorem removeNode_spec {ys zs : List ScoredMember} {x : ScoredMember}
    (hholds : list.Holds (ys++x::zs)) (hlisting : Listing (ys++x::zs)) :
    (removeNode list x).Holds (ys++zs) := by
  obtain ⟨hys,hzs,-⟩ := hlisting.around
  have hself : isPair x x=true := by
    rw [isPair,(Double.eq_self_iff x.1).mpr (hlisting.numbers x (by simp)),beq_self_eq_true]
    rfl
  obtain ⟨list',hremove,hholds'⟩ := hholds.remove_at hys hzs hself
  rw [removeNode,hremove]
  exact hholds'

variable [FloatText]

def pairOf (e : Dict.Entry Bytes) : ScoredMember := (strtod e.2,e.1)

def listing (z : ZSetValue) : List ScoredMember := z.all.map Prod.swap

def places (z : ZSetValue) : List (ℤ×Bytes) := z.listing.map place

/-- The invariant: both forms hold one ascending sequence, and the table has its scores. -/
def Ok : ZSetValue → Prop
  | listPack lp => ∃ ps,lp.Holds (Listpack.stored ps) ∧ Listing (ps.map pairOf)
  | skipList list scores =>
    ∃ xs,list.Holds xs ∧ Listing xs ∧ ∀ m,scores.lookup m=scoreIn xs m

theorem listing_listPack (h : lp.Holds (Listpack.stored ps)) :
    (listPack lp).listing=ps.map pairOf := by
  rw [listing,all,h.toStrings,Listpack.stored,Listpack.map_toString_elementOf,pairUp_flatPairs,
    map_map]
  rfl

theorem listing_skipList {scores : Dict Double} (h : list.Holds xs) :
    (skipList list scores).listing=xs := by
  rw [listing,all,h.items,map_map,Prod.swap_swap_eq,map_id]

theorem places_listPack (h : lp.Holds (Listpack.stored ps)) :
    (listPack lp).places=(ps.map pairOf).map place := by
  rw [places,listing_listPack h]

theorem places_skipList {scores : Dict Double} (h : list.Holds xs) :
    (skipList list scores).places=xs.map place := by
  rw [places,listing_skipList h]

theorem empty_ok : empty.Ok ∧ empty.listing=[] :=
  ⟨⟨[],Listpack.holds_empty,listing_nil⟩,
    listing_listPack (show Listpack.empty.Holds (Listpack.stored []) from Listpack.holds_empty)⟩

theorem Ok.listing (h : z.Ok) : Listing z.listing := by
  cases z with
  | listPack lp =>
    obtain ⟨ps,hholds,hlisting⟩ := h
    rw [listing_listPack hholds]
    exact hlisting
  | skipList list scores =>
    obtain ⟨xs,hholds,hlisting,-⟩ := h
    rw [listing_skipList hholds]
    exact hlisting

theorem elementScore_elementOf (exact : Exact) (text : Bytes) :
    elementScore (elementOf text)=strtod text := by
  rw [elementOf]
  cases hparse : stringToInt64 text with
  | none => rfl
  | some n =>
    obtain ⟨htext,hfits⟩ := stringToInt64_eq_some.mp hparse
    rw [htext,exact.strtod_intDecimal n hfits]
    rfl

theorem map_pairOf_snd (ps : List (Dict.Entry Bytes)) : (ps.map pairOf).map Prod.snd=ps.keys := by
  rw [map_map]
  rfl

theorem Ok.score (exact : Exact) (h : z.Ok) (member : Bytes) :
    z.score member=scoreIn z.listing member := by
  cases z with
  | skipList list scores =>
    obtain ⟨xs,hholds,-,hscores⟩ := h
    rw [ZSetValue.score,Dict.peek_eq,hscores,listing_skipList hholds]
  | listPack lp =>
    obtain ⟨ps,hholds,hlisting⟩ := h
    rw [ZSetValue.score,hholds.find,listing_listPack hholds]
    rcases Listpack.findIn_stored member ps with ⟨before,value,after,rfl,hbefore,hfind⟩ | ⟨hnone,hfind⟩
    · rw [hfind]
      dsimp only
      rw [hholds.get_stored,Option.map_some,elementScore_elementOf exact,eq_comm,
        hlisting.scoreIn_iff]
      exact mem_map.mpr ⟨⟨member,value⟩,by simp,rfl⟩
    · rw [hfind,eq_comm,scoreIn_eq_none,map_pairOf_snd]
      exact hnone

section SkipList

variable {list : SkipList ScoredMember} {scores : Dict Double}

theorem addNode_spec {xs : List ScoredMember} (hholds : list.Holds xs) (hlisting : Listing xs)
    (hscores : ∀ m,scores.lookup m=scoreIn xs m) {member : Bytes} {newScore : Double}
    (hnumber : newScore.isNaN=false) (draws : Draws) :
    (addNode list scores member newScore draws).2.1.Ok ∧
      (∀ p,p∈(addNode list scores member newScore draws).2.1.places ↔
        p=place (newScore,member) ∨ p∈xs.map place ∧ p.2≠member) ∧
      (addNode list scores member newScore draws).1=(scoreIn xs member).isNone := by
  have hfind := scores.find_fst member
  have hkept : ∀ m,(scores.find member).2.lookup m=scoreIn xs m := fun m => by
    rw [Dict.lookup_find,hscores]
  rw [hscores] at hfind
  rw [addNode]
  generalize scores.find member=result at hfind hkept
  obtain ⟨found,scores'⟩ := result
  dsimp only at hfind hkept
  cases found with
  | none =>
    have hnew : member∉xs.map Prod.snd := scoreIn_eq_none.mp hfind.symm
    obtain ⟨ys,zs,rfl,hholds',hlisting'⟩ :=
      insertNode_spec (newScore,member) hholds hlisting hnumber hnew draws
    refine ⟨⟨_,hholds',hlisting',fun m => ?_⟩,fun p => ?_,by rw [← hfind]; rfl⟩
    · rw [Dict.lookup_insert,scoreIn_insert hlisting',hkept]
    · rw [places_skipList hholds',mem_places_insert hnew]
  | some oldScore =>
    have hold : (oldScore,member)∈xs := (hlisting.scoreIn_iff).mp hfind.symm
    obtain ⟨ys,zs,rfl⟩ := append_of_mem hold
    have hdrop : ∀ p,p∈(ys++zs).map place ↔
        p∈(ys++(oldScore,member)::zs).map place ∧ p.2≠member := fun p => hlisting.mem_places_drop
    dsimp only
    split
    · rename_i hsame
      have hplace : place (oldScore,member)=place (newScore,member) := by
        rw [place,place,(Double.eq_spec hsame).2.2]
      refine ⟨⟨_,hholds,hlisting,hkept⟩,fun p => ?_,by rw [← hfind]; rfl⟩
      rw [places_skipList hholds,← hdrop,← hplace,(perm_middle.map place).mem_iff,
        map_cons,mem_cons]
    · have hremoved := removeNode_spec hholds hlisting
      obtain ⟨hlisting₁,hnew⟩ := hlisting.drop
      obtain ⟨ys',zs',hsplit,hholds',hlisting'⟩ :=
        insertNode_spec (newScore,member) hremoved hlisting₁ hnumber hnew draws
      refine ⟨⟨_,hholds',hlisting',fun m => ?_⟩,fun p => ?_,by rw [← hfind]; rfl⟩
      · rw [Dict.lookup_insert,scoreIn_insert hlisting',hkept,scoreIn_insert hlisting,← hsplit]
        dsimp only
        split <;> rfl
      · rw [places_skipList hholds',mem_places_insert (by rw [← hsplit]; exact hnew),
          ← hsplit,← hdrop]
        dsimp only
        rw [hdrop,and_assoc,and_self]

theorem convertLoop_perm (ps : List (Dict.Entry Bytes)) {xs : List ScoredMember}
    (hholds : list.Holds xs) (draws : Draws) :
    ∃ xs',(convertLoop ps list scores draws).1.1.Holds xs' ∧ xs' ~ xs++ps.map pairOf := by
  induction ps generalizing list scores xs draws with
  | nil => exact ⟨xs,hholds,by simp⟩
  | cons e ps ih =>
    obtain ⟨hpos,hmax⟩ := randomLevel_bounds draws
    obtain ⟨ys,zs,rfl,hholds',-,-⟩ := hholds.insert (isBefore · (pairOf e)) (pairOf e) hpos hmax
    obtain ⟨xs',hholds'',hperm⟩ := ih hholds' (randomLevel draws).2
    refine ⟨xs',hholds'',hperm.trans ?_⟩
    rw [map_cons]
    exact (perm_middle.append_right _).trans perm_middle.symm

theorem convertLoop_listing {ps : List (Dict.Entry Bytes)} {xs : List ScoredMember}
    (hholds : list.Holds xs) (hlisting : Listing xs)
    (hnumbers : ∀ e∈ps,(pairOf e).1.isNaN=false)
    (hdistinct : ((xs++ps.map pairOf).map Prod.snd).Nodup)
    (hscores : ∀ m,scores.lookup m=scoreIn xs m) (draws : Draws) :
    ∃ xs',(convertLoop ps list scores draws).1.1.Holds xs' ∧ Listing xs' ∧
      xs' ~ xs++ps.map pairOf ∧
      ∀ m,(convertLoop ps list scores draws).1.2.lookup m=scoreIn xs' m := by
  induction ps generalizing list scores xs draws with
  | nil => exact ⟨xs,hholds,hlisting,by simp,hscores⟩
  | cons e ps ih =>
    have hnew : (pairOf e).2∉xs.map Prod.snd := by
      rw [map_append,map_cons,map_cons] at hdistinct
      exact fun hmem => (nodup_append.mp hdistinct).2.2 _ hmem _ mem_cons_self rfl
    obtain ⟨ys,zs,rfl,hholds',hlisting'⟩ := insertNode_spec (pairOf e) hholds hlisting
      (hnumbers e mem_cons_self) hnew draws
    have hperm : (ys++pairOf e::zs)++ps.map pairOf ~ (ys++zs)++(e::ps).map pairOf := by
      rw [map_cons]
      exact (perm_middle.append_right _).trans perm_middle.symm
    have hscores' : ∀ m,(scores.insert (pairOf e).2 (pairOf e).1).1.lookup m=
        scoreIn (ys++pairOf e::zs) m := fun m => by
      rw [Dict.lookup_insert,scoreIn_insert hlisting',hscores]
    obtain ⟨xs',hholds'',hlisting'',hperm',hscores''⟩ := ih hholds' hlisting'
      (fun e he => hnumbers e (mem_cons_of_mem _ he))
      (((hperm.map Prod.snd).nodup_iff).mpr hdistinct) hscores' (randomLevel draws).2
    exact ⟨xs',hholds'',hlisting'',hperm'.trans hperm,hscores''⟩

end SkipList

theorem toSkipList_spec (hholds : lp.Holds (Listpack.stored ps))
    (hnumbers : ∀ e∈ps,(pairOf e).1.isNaN=false) (hdistinct : ps.NodupKeys) (draws : Draws) :
    ∃ xs,(toSkipList lp draws).1.1.Holds xs ∧ Listing xs ∧ xs ~ ps.map pairOf ∧
      ∀ m,(toSkipList lp draws).1.2.lookup m=scoreIn xs m := by
  have hpairs : pairUp lp.toStrings=ps := by
    rw [hholds.toStrings,Listpack.stored,Listpack.map_toString_elementOf,pairUp_flatPairs]
  rw [toSkipList,hpairs]
  refine convertLoop_listing SkipList.holds_empty listing_nil hnumbers ?_
    (fun m => Dict.lookup_init m) draws
  rw [nil_append,map_pairOf_snd]
  exact hdistinct

section Packed

variable {lp : Listpack}

variable {ps : List (Dict.Entry Bytes)} {member : Bytes}

theorem insertPosition_eq (exact : Exact) {newScore : Double}
    (done todo rest : List (Dict.Entry Bytes))
    (hholds : lp.Holds (Listpack.stored (done++(todo++rest))))
    (htodo : ∀ e∈todo,isBefore (newScore,member) (pairOf e)=false)
    (hrest : ∀ e,rest.head?=some e → isBefore (newScore,member) (pairOf e)=true) {fuel : ℕ}
    (hfuel : todo.length+rest.length ≤ fuel) :
    insertPosition lp member newScore fuel (2*done.length)=2*(done.length+todo.length) := by
  have hcount : lp.numElements=2*(done.length+(todo.length+rest.length)) := by
    rw [hholds.numElements,Listpack.stored_length,length_append,length_append]
  -- the next pair decides whether the loop goes on
  have hnext : ∀ {before after : List (Dict.Entry Bytes)} {e : Dict.Entry Bytes} {fuel : ℕ},
      lp.Holds (Listpack.stored (before++e::after)) →
      insertPosition lp member newScore (fuel+1) (2*before.length)=
        if isBefore (newScore,member) (pairOf e)=true then 2*before.length
        else insertPosition lp member newScore fuel (2*before.length+2) := by
    intro before after e fuel hsplit
    have hlt : 2*before.length < lp.numElements := by
      rw [hsplit.numElements,Listpack.stored_length,length_append,length_cons]
      omega
    rw [insertPosition,if_pos hlt,hsplit.get_key,hsplit.get_stored]
    dsimp only
    rw [behind_eq,toString_elementOf,elementScore_elementOf exact]
    rfl
  induction todo generalizing done fuel with
  | nil =>
    cases rest with
    | nil =>
      have hend : ¬2*done.length < lp.numElements := by
        rw [hcount,length_nil]
        omega
      cases fuel with
      | zero =>
        rw [insertPosition,hcount]
        rfl
      | succ fuel =>
        rw [insertPosition,if_neg hend,hcount]
        rfl
    | cons e rest =>
      cases fuel with
      | zero => simp at hfuel
      | succ fuel => rw [hnext hholds,if_pos (hrest e rfl),length_nil,Nat.add_zero]
  | cons e todo ih =>
    cases fuel with
    | zero => simp at hfuel
    | succ fuel =>
      have hsplit : done++(e::todo++rest)=(done++[e])++(todo++rest) := by simp
      have hstep : 2*done.length+2=2*(done++[e]).length := by
        rw [length_append,length_singleton]
        omega
      rw [hnext hholds,if_neg (by simp [htodo e mem_cons_self]),hstep]
      rw [hsplit] at hholds
      rw [ih _ hholds (fun x hx => htodo x (mem_cons_of_mem _ hx))
        (by rw [length_cons] at hfuel; omega) (by rw [hcount]; simp; omega)]
      simp
      omega

theorem place_printed (exact : Exact) {s : Double} (h : s.isNaN=false) (member : Bytes) :
    (pairOf ⟨member,d2string s⟩).1.isNaN=false ∧
      place (pairOf ⟨member,d2string s⟩)=place (s,member) := by
  obtain ⟨hnumber,-,hkey⟩ := Double.eq_spec (exact.strtod_d2string s h)
  exact ⟨hnumber,by rw [place,place]; exact Prod.ext hkey rfl⟩

theorem insertPacked_split (exact : Exact) (hholds : lp.Holds (Listpack.stored ps))
    (newScore : Double) (hsize : member.length < 2^32) :
    ∃ ps₁ ps₂,ps=ps₁++ps₂ ∧
      (insertPacked lp member newScore).Holds
        (Listpack.stored (ps₁++⟨member,d2string newScore⟩::ps₂)) ∧
      (∀ e∈ps₁,isBefore (newScore,member) (pairOf e)=false) ∧
      ∀ e,ps₂.head?=some e → isBefore (newScore,member) (pairOf e)=true := by
  set behind : Dict.Entry Bytes → Bool := fun e => isBefore (newScore,member) (pairOf e)
  have hsplit : ps.takeWhile (!behind ·)++ps.dropWhile (!behind ·)=ps :=
    takeWhile_append_dropWhile
  have htodo : ∀ e∈ps.takeWhile (!behind ·),behind e=false := fun e he => by
    simpa using mem_takeWhile_imp (p := (!behind ·)) he
  have hrest : ∀ e,(ps.dropWhile (!behind ·)).head?=some e → behind e=true := fun e he => by
    have hnot := head?_dropWhile_not (!behind ·) ps
    rw [he] at hnot
    simpa using hnot
  rw [← hsplit] at hholds
  generalize ps.takeWhile (!behind ·)=ps₁ at *
  generalize ps.dropWhile (!behind ·)=ps₂ at *
  have hposition : insertPosition lp member newScore lp.numElements 0=2*ps₁.length := by
    have hfuel : ps₁.length+ps₂.length ≤ lp.numElements := by
      rw [hholds.numElements,Listpack.stored_length,length_append]
      omega
    have hloop := insertPosition_eq exact [] ps₁ ps₂ hholds htodo hrest hfuel
    rwa [length_nil,Nat.mul_zero,Nat.zero_add] at hloop
  have htext : (d2string newScore).length < 2^32 :=
    lt_of_le_of_lt (exact.d2string_length newScore) (by decide)
  obtain ⟨lp',lp'',hfirst,hsecond,hholds'⟩ := hholds.insert_pair hsize htext
  refine ⟨ps₁,ps₂,hsplit.symm,?_,htodo,hrest⟩
  rw [insertPacked,hposition,hfirst,Option.getD_some,hsecond]
  exact hholds'

theorem isBefore_printed (exact : Exact) (s : Double) (member : Bytes) (x : ScoredMember) :
    isBefore (pairOf ⟨member,d2string s⟩) x=isBefore (s,member) x := by
  by_cases hs : s.isNaN=false
  · obtain ⟨hnumber,hplace⟩ := place_printed exact hs member
    by_cases hx : x.1.isNaN=false
    · rw [Bool.eq_iff_iff,isBefore_iff hnumber hx,isBefore_iff hs hx,hplace]
    · rw [Bool.eq_iff_iff]
      exact ⟨fun h => absurd (isBefore_numbers h).2 hx,fun h => absurd (isBefore_numbers h).2 hx⟩
  · rw [Bool.not_eq_false] at hs
    have hprinted := exact.strtod_nan s hs
    rw [Bool.eq_iff_iff]
    refine ⟨fun h => ?_,fun h => ?_⟩
    · have hnumber := (isBefore_numbers h).1
      rw [show (pairOf ⟨member,d2string s⟩).1=strtod (d2string s) from rfl,hprinted] at hnumber
      cases hnumber
    · rw [(isBefore_numbers h).1] at hs
      cases hs

theorem insertPacked_numbers (exact : Exact) (hholds : lp.Holds (Listpack.stored ps))
    (hlisting : Listing (numbersIn (ps.map pairOf))) (newScore : Double)
    (hsize : member.length < 2^32) (hnew : member∉ps.keys) :
    ∃ ps₁ ps₂,ps=ps₁++ps₂ ∧
      (insertPacked lp member newScore).Holds
        (Listpack.stored (ps₁++⟨member,d2string newScore⟩::ps₂)) ∧
      Listing (numbersIn ((ps₁++⟨member,d2string newScore⟩::ps₂).map pairOf)) := by
  obtain ⟨ps₁,ps₂,rfl,hholds',hbefore,hbehind⟩ := insertPacked_split exact hholds newScore hsize
  refine ⟨ps₁,ps₂,rfl,hholds',?_⟩
  rw [map_append] at hlisting
  rw [map_append,map_cons]
  refine hlisting.insert_numbers ?_ (fun y hy => ?_) (fun z hz => ?_)
  · rw [← map_append,map_pairOf_snd]
    exact hnew
  · obtain ⟨e,he,rfl⟩ := mem_map.mp hy
    rw [isBefore_printed exact]
    exact hbefore e he
  · rw [head?_map,Option.map_eq_some_iff] at hz
    obtain ⟨e,he,rfl⟩ := hz
    rw [isBefore_printed exact]
    exact hbehind e he

theorem insertPacked_spec (exact : Exact) (hholds : lp.Holds (Listpack.stored ps))
    (hlisting : Listing (ps.map pairOf)) {newScore : Double} (hnumber : newScore.isNaN=false)
    (hsize : member.length < 2^32) (hnew : member∉ps.keys) :
    ∃ ps₁ ps₂,ps=ps₁++ps₂ ∧
      (insertPacked lp member newScore).Holds
        (Listpack.stored (ps₁++⟨member,d2string newScore⟩::ps₂)) ∧
      Listing ((ps₁++⟨member,d2string newScore⟩::ps₂).map pairOf) := by
  obtain ⟨ps₁,ps₂,rfl,hholds',hlisting'⟩ := insertPacked_numbers exact hholds
    (by rw [numbersIn_eq_self hlisting.numbers]; exact hlisting) newScore hsize hnew
  refine ⟨ps₁,ps₂,rfl,hholds',?_⟩
  rwa [numbersIn_eq_self fun x hx => ?_] at hlisting'
  rw [map_append,map_cons,perm_middle.mem_iff,← map_append] at hx
  rcases mem_cons.mp hx with rfl | hx
  · exact (place_printed exact hnumber member).1
  · exact hlisting.numbers x hx

end Packed

theorem Ok.add (exact : Exact) (h : z.Ok) {newScore : Double} (hnumber : newScore.isNaN=false)
    (member : Bytes) (draws : Draws) :
    (z.add member newScore draws).2.1.Ok ∧
      (∀ p,p∈(z.add member newScore draws).2.1.places ↔
        p=place (newScore,member) ∨ p∈z.places ∧ p.2≠member) ∧
      (z.add member newScore draws).1=(scoreIn z.listing member).isNone := by
  cases z with
  | skipList list scores =>
    obtain ⟨xs,hholds,hlisting,hscores⟩ := h
    rw [ZSetValue.add,places_skipList hholds,listing_skipList hholds]
    exact addNode_spec hholds hlisting hscores hnumber draws
  | listPack lp =>
    obtain ⟨ps,hholds,hlisting⟩ := h
    rw [ZSetValue.add,hholds.find,places_listPack hholds,listing_listPack hholds]
    rcases Listpack.findIn_stored member ps with ⟨before,value,after,rfl,hbefore,hfind⟩ | ⟨hnone,hfind⟩
    · rw [hfind]
      dsimp only
      obtain ⟨lp',herase,hholds'⟩ := hholds.erase_pair
      have hsize : member.length < 2^32 := Listpack.Holds.text_lt hholds (by simp [flatPairs])
      rw [map_append,map_cons] at hlisting ⊢
      obtain ⟨hlisting',hnew⟩ := hlisting.drop
      rw [← map_append] at hlisting' hnew
      rw [map_pairOf_snd] at hnew
      obtain ⟨ps₁,ps₂,hsplit,hpacked,hlisting''⟩ :=
        insertPacked_spec exact hholds' hlisting' hnumber hsize hnew
      rw [herase,Option.getD_some]
      refine ⟨⟨_,hpacked,hlisting''⟩,fun p => ?_,?_⟩
      · have hnew' : member∉(ps₁.map pairOf++ps₂.map pairOf).map Prod.snd := by
          rw [← map_append,← hsplit,map_pairOf_snd]
          exact hnew
        rw [places_listPack hpacked,map_append,map_cons,mem_places_insert hnew',
          (place_printed exact hnumber member).2,← map_append,← hsplit,map_append,
          hlisting.mem_places_drop,and_assoc]
        exact or_congr_right (and_congr_right fun _ => and_self_iff)
      · rw [eq_comm,Option.isNone_eq_false_iff,Option.isSome_iff_exists]
        exact ⟨_,hlisting.scoreIn_iff.mpr (by simp [pairOf]; exact .inr (.inl rfl))⟩
    · rw [hfind]
      dsimp only
      have hmiss : scoreIn (ps.map pairOf) member=none := by
        rw [scoreIn_eq_none,map_pairOf_snd]
        exact hnone
      have hdistinct : ps.NodupKeys := by
        rw [NodupKeys,← map_pairOf_snd]
        exact hlisting.distinct
      split
      · obtain ⟨xs,hholds',hlisting',hperm,hscores⟩ := toSkipList_spec hholds
          (fun e he => hlisting.numbers _ (mem_map_of_mem he)) hdistinct draws
        obtain ⟨hok,hplaces,hfresh⟩ := addNode_spec hholds' hlisting' hscores hnumber
          (toSkipList lp draws).2
        have hmiss' : scoreIn xs member=none := by
          rw [scoreIn_eq_none] at hmiss ⊢
          exact fun hmem => hmiss ((hperm.map Prod.snd).mem_iff.mp hmem)
        refine ⟨hok,fun p => (hplaces p).trans ?_,hfresh.trans (by rw [hmiss',hmiss])⟩
        rw [(hperm.map place).mem_iff]
      · rename_i hsmall
        simp only [Bool.or_eq_true,decide_eq_true_eq,not_or,not_lt] at hsmall
        have hlimit : defaultLimits.zsetMaxListpackValue=64 := rfl
        obtain ⟨ps₁,ps₂,rfl,hpacked,hlisting'⟩ :=
          insertPacked_spec exact hholds hlisting hnumber (by omega : member.length < 2^32) hnone
        refine ⟨⟨_,hpacked,hlisting'⟩,fun p => ?_,by rw [hmiss]; rfl⟩
        have hnew' : member∉(ps₁.map pairOf++ps₂.map pairOf).map Prod.snd := by
          rw [← map_append,map_pairOf_snd]
          exact hnone
        dsimp only
        rw [places_listPack hpacked,map_append,map_cons,mem_places_insert hnew',
          (place_printed exact hnumber member).2,← map_append]
        rfl

theorem Ok.erase (h : z.Ok) (member : Bytes) :
    (z.erase member).2.Ok ∧
      (∀ p,p∈(z.erase member).2.places ↔ p∈z.places ∧ p.2≠member) ∧
      (z.erase member).1=(scoreIn z.listing member).isSome := by
  cases z with
  | skipList list scores =>
    obtain ⟨xs,hholds,hlisting,hscores⟩ := h
    have hfind := scores.find_fst member
    have hkept : ∀ m,(scores.find member).2.lookup m=scoreIn xs m := fun m => by
      rw [Dict.lookup_find,hscores]
    rw [hscores] at hfind
    rw [ZSetValue.erase,places_skipList hholds,listing_skipList hholds]
    generalize scores.find member=result at hfind hkept
    obtain ⟨found,scores'⟩ := result
    dsimp only at hfind hkept
    cases found with
    | none =>
      refine ⟨⟨xs,hholds,hlisting,hkept⟩,fun p => ?_,by rw [← hfind]; rfl⟩
      rw [places_skipList hholds,iff_self_and]
      rintro hp rfl
      obtain ⟨x,hx,rfl⟩ := mem_map.mp hp
      exact scoreIn_eq_none.mp hfind.symm (mem_map_of_mem hx)
    | some existing =>
      have hold : (existing,member)∈xs := hlisting.scoreIn_iff.mp hfind.symm
      obtain ⟨ys,zs,rfl⟩ := append_of_mem hold
      have hremoved := removeNode_spec hholds hlisting
      refine ⟨⟨_,hremoved,hlisting.drop.1,fun m => ?_⟩,fun p => ?_,by rw [← hfind]; rfl⟩
      · rw [Dict.lookup_erase,hkept,scoreIn_insert hlisting]
        dsimp only
        split
        · rename_i hm
          rw [hm,eq_comm,scoreIn_eq_none]
          exact hlisting.drop.2
        · rfl
      · rw [places_skipList hremoved,hlisting.mem_places_drop]
  | listPack lp =>
    obtain ⟨ps,hholds,hlisting⟩ := h
    rw [ZSetValue.erase,hholds.find,places_listPack hholds,listing_listPack hholds]
    rcases Listpack.findIn_stored member ps with ⟨before,value,after,rfl,hbefore,hfind⟩ | ⟨hnone,hfind⟩
    · obtain ⟨lp',herase,hholds'⟩ := hholds.erase_pair
      rw [hfind]
      dsimp only
      rw [herase]
      rw [map_append,map_cons] at hlisting ⊢
      refine ⟨⟨_,hholds',by rw [map_append]; exact hlisting.drop.1⟩,fun p => ?_,?_⟩
      · rw [places_listPack hholds',map_append,hlisting.mem_places_drop]
        rfl
      · rw [eq_comm,Option.isSome_iff_exists]
        exact ⟨_,hlisting.scoreIn_iff.mpr (mem_append_right _ mem_cons_self)⟩
    · have hmiss : member∉(ps.map pairOf).map Prod.snd := by
        rw [map_pairOf_snd]
        exact hnone
      rw [hfind]
      refine ⟨⟨ps,hholds,hlisting⟩,fun p => ?_,?_⟩
      · rw [places_listPack hholds,iff_self_and]
        rintro hp rfl
        obtain ⟨x,hx,rfl⟩ := mem_map.mp hp
        exact hmiss (mem_map_of_mem hx)
      · rw [scoreIn_eq_none.mpr hmiss]
        rfl

theorem addAll_spec (exact : Exact) {es : List (Bytes×Double)} (start : ZSetValue×Draws)
    (h : start.1.Ok) (hnumbers : ∀ e∈es,e.2.isNaN=false) (hdistinct : (es.map Prod.fst).Nodup)
    (hnew : ∀ p∈start.1.places,p.2∉es.map Prod.fst) :
    (addAll es start).1.Ok ∧ ∀ p,p∈(addAll es start).1.places ↔
      p∈start.1.places ∨ p∈es.map fun e => place e.swap := by
  induction es generalizing start with
  | nil => exact ⟨h,fun p => by simp [addAll]⟩
  | cons e es ih =>
    obtain ⟨z,draws⟩ := start
    obtain ⟨hok,hplaces,-⟩ := h.add exact (hnumbers e mem_cons_self) e.1 draws
    obtain ⟨hfresh,hdistinct'⟩ := nodup_cons.mp hdistinct
    obtain ⟨hok',hplaces'⟩ := ih _ hok (fun x hx => hnumbers x (mem_cons_of_mem _ hx))
      hdistinct' (by
        intro p hp
        rcases (hplaces p).mp hp with rfl | ⟨hp,-⟩
        · exact hfresh
        · exact fun hmem => hnew p hp (mem_cons_of_mem _ hmem))
    refine ⟨hok',fun p => (hplaces' p).trans ?_⟩
    rw [hplaces,map_cons,mem_cons,or_assoc,or_left_comm]
    have hkept : p∈z.places ∧ p.2≠e.1 ↔ p∈z.places :=
      and_iff_left_of_imp fun hp heq => hnew p hp (heq ▸ mem_cons_self)
    rw [hkept]
    exact Iff.rfl

theorem addAll_places (exact : Exact) (h : z.Ok) {es : List (Bytes×Double)} (hperm : es ~ z.all)
    (draws : Draws) :
    (addAll es (empty,draws)).1.Ok ∧ (addAll es (empty,draws)).1.places=z.places := by
  have hswap : ∀ e : Bytes×Double,e∈es → e.swap∈z.listing := fun e he =>
    mem_map_of_mem (hperm.mem_iff.mp he)
  have hmembers : z.all.map Prod.fst=z.listing.map Prod.snd := by
    rw [ZSetValue.listing,map_map]
    rfl
  obtain ⟨hok,hplaces⟩ := addAll_spec exact (empty,draws) empty_ok.1
    (fun e he => h.listing.numbers _ (hswap e he))
    (by rw [(hperm.map Prod.fst).nodup_iff,hmembers]; exact h.listing.distinct)
    (fun p hp => by rw [places,empty_ok.2] at hp; exact absurd hp not_mem_nil)
  refine ⟨hok,hok.listing.places_eq h.listing fun p => (hplaces p).trans ?_⟩
  rw [places,empty_ok.2,map_nil,or_iff_right not_mem_nil,
    (hperm.map fun e => place e.swap).mem_iff,ZSetValue.listing,map_map]
  rfl

theorem Ok.copy (exact : Exact) (h : z.Ok) (draws : Draws) :
    (z.copy draws).1.Ok ∧ (z.copy draws).1.places=z.places :=
  addAll_places exact h (Perm.refl _) draws

theorem Ok.rank (h : z.Ok) (member : Bytes) :
    z.rank member=rankIn z.listing member := by
  cases z with
  | skipList list scores =>
    obtain ⟨xs,hholds,hlisting,hscores⟩ := h
    rw [ZSetValue.rank,Dict.peek_eq,hscores,listing_skipList hholds]
    cases hscore : scoreIn xs member with
    | none =>
      rw [eq_comm,rankIn,findIdx?_eq_none_iff]
      intro x hx
      rw [beq_eq_false_iff_ne]
      exact fun heq => scoreIn_eq_none.mp hscore (mem_map.mpr ⟨x,hx,heq⟩)
    | some s =>
      obtain ⟨ys,zs,rfl⟩ := append_of_mem (hlisting.scoreIn_iff.mp hscore)
      obtain ⟨hys,-,hzs⟩ := hlisting.around
      have hnumber := hlisting.numbers (s,member) (by simp)
      have hother : (s,member).2∉ys.map Prod.snd := fun hmem =>
        hlisting.drop.2 (by rw [map_append]; exact mem_append_left _ hmem)
      rw [rankIn_eq zs hother]
      refine hholds.rankOf _ _ rfl (fun y hy => ⟨?_,?_⟩) ⟨?_,?_⟩ fun x hx => ?_
      · have hy' := hlisting.numbers y (by simp [hy])
        rw [Bool.not_eq_true',isBefore_eq_false_iff hnumber hy']
        exact fun hlt => Earlier.irrefl _ (hlt.trans ((isBefore_iff hy' hnumber).mp (hys y hy)))
      · rw [isPair,Bool.and_eq_false_iff]
        refine .inr ?_
        rw [beq_eq_false_iff_ne]
        exact fun heq => hother (mem_map.mpr ⟨y,hy,heq⟩)
      · rw [Bool.not_eq_true',isBefore_eq_false_iff hnumber hnumber]
        exact Earlier.irrefl _
      · rw [isPair,(Double.eq_self_iff s).mpr hnumber,beq_self_eq_true]
        rfl
      · rw [hzs x hx]
        rfl
  | listPack lp =>
    obtain ⟨ps,hholds,hlisting⟩ := h
    rw [ZSetValue.rank,hholds.find,listing_listPack hholds]
    rcases Listpack.findIn_stored member ps with ⟨before,value,after,rfl,hbefore,hfind⟩ | ⟨hnone,hfind⟩
    · have hother : (pairOf ⟨member,value⟩).2∉(before.map pairOf).map Prod.snd := by
        rw [map_pairOf_snd]
        exact hbefore
      have hrank := rankIn_eq (after.map pairOf) hother
      rw [hfind,map_append,map_cons,Option.map_some,Nat.mul_div_cancel_left _ (by decide)]
      rw [length_map] at hrank
      exact hrank.symm
    · rw [hfind,eq_comm,Option.map_none,rankIn,findIdx?_eq_none_iff]
      intro x hx
      rw [beq_eq_false_iff_ne]
      rintro rfl
      exact hnone (by rw [← map_pairOf_snd]; exact mem_map_of_mem hx)

theorem Ok.size (h : z.Ok) : z.size=z.listing.length := by
  cases z with
  | listPack lp =>
    obtain ⟨ps,hholds,-⟩ := h
    rw [listing_listPack hholds,ZSetValue.size,hholds.numElements,Listpack.stored_length,
      length_map]
    omega
  | skipList list scores =>
    obtain ⟨xs,hholds,hlisting,hscores⟩ := h
    rw [listing_skipList hholds,ZSetValue.size,scores.size_eq]
    have hperm : scores.entries.keys ~ xs.map Prod.snd := by
      refine (perm_ext_iff_of_nodup scores.entries_nodupKeys hlisting.distinct).mpr fun m => ?_
      rw [← dlookup_isSome]
      change (scores.lookup m).isSome=true ↔ _
      rw [hscores,← not_iff_not,← scoreIn_eq_none,Bool.not_eq_true,Option.isSome_eq_false_iff,
        Option.isNone_iff_eq_none]
    have hlen := hperm.length_eq
    rwa [length_map,List.keys,length_map] at hlen

theorem convertToSkipList_ok (hholds : lp.Holds (Listpack.stored ps))
    (hlisting : Listing (ps.map pairOf)) (draws : Draws) :
    ((listPack lp).convertToSkipList draws).1.Ok ∧
      ((listPack lp).convertToSkipList draws).1.places=(ps.map pairOf).map place := by
  have hdistinct : ps.NodupKeys := by
    rw [NodupKeys,← map_pairOf_snd]
    exact hlisting.distinct
  obtain ⟨xs,hholds',hlisting',hperm,hscores⟩ := toSkipList_spec hholds
    (fun e he => hlisting.numbers _ (mem_map_of_mem he)) hdistinct draws
  refine ⟨⟨xs,hholds',hlisting',hscores⟩,?_⟩
  rw [convertToSkipList,places_skipList hholds']
  exact hlisting'.places_eq hlisting fun p => (hperm.map place).mem_iff

theorem adoptListpack_ok (hholds : lp.Holds (Listpack.stored ps))
    (hlisting : Listing (ps.map pairOf)) (draws : Draws) :
    ∃ z draws',adoptListpack lp draws=some (z,draws') ∧ z.Ok ∧
      z.places=(ps.map pairOf).map place := by
  have heven : ¬lp.numElements%2≠0 := by
    rw [hholds.numElements,Listpack.stored_length]
    omega
  rw [adoptListpack,if_neg heven]
  split
  · exact ⟨_,_,rfl,convertToSkipList_ok hholds hlisting draws⟩
  · exact ⟨_,_,rfl,⟨ps,hholds,hlisting⟩,places_listPack hholds⟩

end Mnemos.ZSetValue
