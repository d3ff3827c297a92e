import Mathlib.Data.List.TakeWhile
import Mnemos.Ascending
import Mnemos.SkipListItems

/-!
# The representation of a skip list

Every sequence of insertions, removals, changes of a score and clearings leaves
links, spans and counters that describe one ascending sequence of nodes.
-/

open List Function

namespace Mnemos.SkipList

section Levels

variable {K : Type} {sl : SkipList K} {order : List ℕ} {newLevel : ℕ}

def clear (sl : SkipList K) : SkipList K :=
  { sl with
    nodes := update sl.nodes header
      { sl.nodes header with levels := replicate maxLevel ⟨none,0⟩ }
    tail := none
    length := 0
    level := 1 }

/-- One level is in use, or the header has a link on the highest. -/
def Capped (sl : SkipList K) : Prop :=
  sl.level=1 ∨ (levelAt sl.nodes header (sl.level-1)).forward≠none

def walkLevel (nodes : ℕ → SkipNode K) (i : ℕ) : ℕ → ℕ → List ℕ
  | 0,_ => []
  | fuel+1,x =>
    match (levelAt nodes x i).forward with
    | none => []
    | some y => y::walkLevel nodes i fuel y

theorem walkLevel_eq (hl : Linked sl order) {i : ℕ} (hi : i < sl.level) {x fuel : ℕ}
    {post : List ℕ} (hx : At order x post) (hheight : i < height sl.nodes x)
    (hfuel : post.length ≤ fuel) :
    walkLevel sl.nodes i fuel x=post.filter (tall sl.nodes i) := by
  induction fuel generalizing x post with
  | zero => rw [length_eq_zero_iff.mp (by omega : post.length=0)]; rfl
  | succ fuel ih =>
    rw [walkLevel,hl.links x post hx i hi hheight]
    simp only [hop]
    cases hnext : post.find? (tall sl.nodes i) with
    | none => exact (filter_eq_nil_iff.mpr (find?_eq_none.mp hnext)).symm
    | some y =>
      obtain ⟨hy,mid,back,rfl,hmid⟩ := find?_eq_some_iff_append.mp hnext
      have hlow : mid.filter (tall sl.nodes i)=[] :=
        filter_eq_nil_iff.mpr fun z hz => by simpa using hmid z hz
      rw [length_append,length_cons] at hfuel
      rw [filter_append,hlow,nil_append,filter_cons_of_pos hy]
      exact congrArg _ (ih hx.step (by simpa [tall] using hy) (by omega))

theorem capped_of_tall (hl : Linked sl order) {x : ℕ} (hx : x∈order)
    (hheight : height sl.nodes x=sl.level) : sl.Capped := by
  have hpos := hl.levelPos
  have hmax := hl.levelMax
  refine .inr fun hnone => ?_
  rw [hl.links header order (At.start order) _ (by omega) (by rw [hl.headerHeight]; omega)] at hnone
  have := find?_eq_none.mp hnone x hx
  rw [tall,hheight,decide_eq_true_iff] at this
  omega

theorem Capped.tall (h : sl.Capped) (hl : Linked sl order) :
    sl.level=1 ∨ ∃ x∈order,height sl.nodes x=sl.level := by
  have hpos := hl.levelPos
  have hmax := hl.levelMax
  refine h.imp_right fun hsome => ?_
  rw [hl.links header order (At.start order) _ (by omega) (by rw [hl.headerHeight]; omega)] at hsome
  obtain ⟨x,hx⟩ := Option.ne_none_iff_exists'.mp hsome
  have hin := mem_of_find?_eq_some hx
  have htall : sl.level-1 < height sl.nodes x := by simpa [SkipList.tall] using find?_some hx
  have := hl.heights x hin
  exact ⟨x,hin,by omega⟩

theorem insert_level (test : K → Bool) (item : K) :
    (sl.insert test item newLevel).level=max sl.level newLevel := by
  simp only [insert,finishInsert]
  split <;> rfl

theorem insert_capped (hl : Linked sl order) (h : sl.Capped) (test : K → Bool) (item : K)
    (hpos : 0 < newLevel) (hmax : newLevel ≤ maxLevel) :
    (sl.insert test item newLevel).Capped := by
  obtain ⟨front,rest,hsplit,hlinked,-,-,hheight,-⟩ := insert_linked hl test item hpos hmax
  have hlevel := @insert_level K sl newLevel test item
  by_cases hnew : sl.level ≤ newLevel
  · refine capped_of_tall hlinked (mem_append_right front mem_cons_self) ?_
    rw [hheight,newHeight,if_pos rfl,hlevel,max_eq_right hnew]
  · have hlevel' : (sl.insert test item newLevel).level=sl.level := by omega
    rcases h.tall hl with hone | ⟨x,hx,htall⟩
    · exact .inl (hlevel'.trans hone)
    · refine capped_of_tall (x := x) hlinked (by rw [hsplit] at hx; simp at hx ⊢; tauto) ?_
      rw [hheight,newHeight,if_neg (hl.fresh (mem_cons_of_mem header hx)),htall,hlevel']

theorem remove_capped (hpos : 0 < sl.level) {test wanted : K → Bool}
    (h : (sl.remove test wanted).1=true) : (sl.remove test wanted).2.Capped := by
  revert h
  unfold remove
  dsimp only
  split
  · exact nofun
  · split
    · split <;> exact fun _ => (dropLevels_spec _ hpos).2.2.2
    · exact nofun

theorem clear_linked (hl : Linked sl order) : Linked sl.clear [] := by
  refine linked_nil ?_ (fun i => ?_) (hl.allocated header mem_cons_self) rfl rfl rfl
  · simp [height,clear]
  · simp [levelAt,clear]

end Levels

section Pairs

variable {S : Type} [LinearOrder S]

def insertPair (sl : SkipList (S×Bytes)) (score : S) (member : Bytes) (level : ℕ) :
    SkipList (S×Bytes) :=
  sl.insert (fun x => decide (Precedes x (score,member))) (score,member) level

def removePair (sl : SkipList (S×Bytes)) (score : S) (member : Bytes) :
    Bool×SkipList (S×Bytes) :=
  sl.remove (fun x => decide (Precedes x (score,member))) (fun x => decide (x=(score,member)))

def updateScore (sl : SkipList (S×Bytes)) (oldScore : S) (member : Bytes) (newScore : S)
    (level : ℕ) : SkipList (S×Bytes) :=
  let removed := sl.removePair oldScore member
  if removed.1 then removed.2.insertPair newScore member level else removed.2

/-- The lists that the operations make, with any levels. -/
inductive Reached [Inhabited S] : SkipList (S×Bytes) → Prop where
  | empty : Reached .empty
  | insert {sl : SkipList (S×Bytes)} (h : Reached sl) (score : S) (member : Bytes)
      (habsent : member∉sl.items.map Prod.snd) (level : ℕ) (hpos : 0 < level)
      (hmax : level ≤ maxLevel) : Reached (sl.insertPair score member level)
  | remove {sl : SkipList (S×Bytes)} (h : Reached sl) (score : S) (member : Bytes) :
      Reached (sl.removePair score member).2
  | updateScore {sl : SkipList (S×Bytes)} (h : Reached sl) (oldScore : S) (member : Bytes)
      (newScore : S) (level : ℕ) (hpos : 0 < level) (hmax : level ≤ maxLevel) :
      Reached (sl.updateScore oldScore member newScore level)
  | clear {sl : SkipList (S×Bytes)} (h : Reached sl) : Reached sl.clear

structure Sound (sl : SkipList (S×Bytes)) (xs : List (S×Bytes)) : Prop where
  holds : sl.Holds xs
  capped : sl.Capped
  ascending : xs.Pairwise Precedes
  distinct : (xs.map Prod.snd).Nodup

variable {sl : SkipList (S×Bytes)} {xs : List (S×Bytes)} {score : S} {member : Bytes}

theorem Sound.insertPair (h : Sound sl xs) (habsent : member∉xs.map Prod.snd) {level : ℕ}
    (hpos : 0 < level) (hmax : level ≤ maxLevel) :
    ∃ ys,Sound (sl.insertPair score member level) ys := by
  obtain ⟨ys,zs,rfl,hnew,hlast,hhead⟩ := h.holds.insert
    (fun x => decide (Precedes x (score,member))) (score,member) hpos hmax
  obtain ⟨hys,hzs⟩ := split_ascending h.ascending
    (fun hab hb => decide_eq_true (hab.trans (of_decide_eq_true hb))) hlast hhead
  have hsplit := pairwise_append.mp h.ascending
  have hbehind : ∀ z∈zs,Precedes (score,member) z := by
    intro z hz
    refine (Precedes.total ?_).resolve_right (of_decide_eq_false (hzs z hz))
    rintro rfl
    exact habsent (mem_map_of_mem (mem_append_right _ hz))
  obtain ⟨order,hl,-⟩ := h.holds
  refine ⟨_,hnew,insert_capped hl h.capped _ _ hpos hmax,?_,?_⟩
  · refine pairwise_append.mpr ⟨hsplit.1,pairwise_cons.mpr ⟨hbehind,hsplit.2.1⟩,fun y hy z hz => ?_⟩
    rcases mem_cons.mp hz with rfl | hz
    · exact of_decide_eq_true (hys y hy)
    · exact hsplit.2.2 y hy z hz
  · rw [map_append,map_cons,nodup_middle,← map_append]
    exact nodup_cons.mpr ⟨habsent,h.distinct⟩

theorem Sound.removePair (h : Sound sl xs) (score : S) (member : Bytes) :
    sl.removePair score member=(false,sl) ∨
      ∃ sl' ys,sl.removePair score member=(true,sl') ∧ Sound sl' ys ∧
        member∉ys.map Prod.snd := by
  obtain ⟨ys,zs,rfl,-,-,hfound,hmissing⟩ := h.holds.remove
    (fun x => decide (Precedes x (score,member))) (fun x => decide (x=(score,member)))
  cases zs with
  | nil => exact .inl (hmissing nofun)
  | cons z back =>
    by_cases hz : z=(score,member)
    · obtain ⟨sl',hremove,hrest⟩ := hfound z back rfl (decide_eq_true hz)
      obtain ⟨order,hl,-⟩ := h.holds
      have hcapped := @remove_capped _ sl hl.levelPos (fun x => decide (Precedes x (score,member)))
        (fun x => decide (x=(score,member))) (by rw [hremove])
      have hdistinct := h.distinct
      rw [hremove] at hcapped
      rw [map_append,map_cons,nodup_middle,← map_append,nodup_cons,hz] at hdistinct
      exact .inr ⟨sl',_,hremove,⟨hrest,hcapped,
        h.ascending.sublist ((sublist_cons_self z back).append_left ys),hdistinct.2⟩,hdistinct.1⟩
    · exact .inl (hmissing fun x hx => by cases hx; exact decide_eq_false hz)

theorem Reached.sound [Inhabited S] (h : Reached sl) : ∃ xs,Sound sl xs := by
  induction h with
  | empty => exact ⟨[],holds_empty,.inl rfl,.nil,.nil⟩
  | insert _ score member habsent level hpos hmax ih =>
    obtain ⟨xs,ih⟩ := ih
    rw [ih.holds.items] at habsent
    exact ih.insertPair habsent hpos hmax
  | remove _ score member ih =>
    obtain ⟨xs,ih⟩ := ih
    rcases ih.removePair score member with hsame | ⟨sl',ys,hremove,hsound,-⟩
    · rw [hsame]
      exact ⟨xs,ih⟩
    · rw [hremove]
      exact ⟨ys,hsound⟩
  | updateScore _ oldScore member newScore level hpos hmax ih =>
    obtain ⟨xs,ih⟩ := ih
    rw [SkipList.updateScore]
    rcases ih.removePair oldScore member with hsame | ⟨sl',ys,hremove,hsound,habsent⟩
    · rw [hsame]
      exact ⟨xs,ih⟩
    · rw [hremove]
      exact hsound.insertPair habsent hpos hmax
  | clear _ ih =>
    obtain ⟨xs,⟨order,hl,-⟩,-⟩ := ih
    exact ⟨[],⟨[],clear_linked hl,rfl⟩,.inl rfl,.nil,.nil⟩

def Ascends (sl : SkipList (S×Bytes)) (order : List ℕ) : Prop :=
  order.Pairwise fun x y => Precedes (sl.nodes x).item (sl.nodes y).item

/-- The fields describe these nodes: links, spans, predecessors, tail and length are those of the
sequence, which ascends; the links of a level visit the nodes of that height; and the levels in use
end with the highest that has a node. -/
structure Represents (sl : SkipList (S×Bytes)) (order : List ℕ) : Prop where
  linked : Linked sl order
  ascends : Ascends sl order
  levels : ∀ i,i < sl.level →
    walkLevel sl.nodes i sl.length header=order.filter (tall sl.nodes i)
  capped : sl.Capped

/-- Every list that the operations make represents a sequence of nodes. -/
theorem Reached.represents [Inhabited S] (h : Reached sl) : ∃ order,Represents sl order := by
  obtain ⟨xs,⟨order,hl,rfl⟩,hcapped,hascending,-⟩ := h.sound
  refine ⟨order,hl,pairwise_map.mp hascending,fun i hi => ?_,hcapped⟩
  exact walkLevel_eq hl hi (At.start order) (by rw [hl.headerHeight]; exact hi.trans_le hl.levelMax)
    hl.length.ge

end Pairs

theorem represents_rescored : ∃ order,
    Represents (((empty : SkipList (ℕ×Bytes)).insertPair 7 [97] 2).updateScore 7 [97] 3 1) order :=
  ((Reached.empty.insert 7 [97] nofun 2 (by decide) (by decide)).updateScore 7 [97] 3 1
    (by decide) (by decide)).represents

end Mnemos.SkipList

/-! ## Queries of a skip list -/

open List

namespace Mnemos

namespace SkipList

section Search

variable {K : Type} {sl : SkipList K} {order : List ℕ}

/-- One level of `nodeByRank`: walk right while the target is not overtaken. -/
def seekNode (nodes : ℕ → SkipNode K) (target i : ℕ) : ℕ → ℕ → ℕ → ℕ×ℕ
  | 0,x,travelled => (x,travelled)
  | fuel+1,x,travelled =>
    match (levelAt nodes x i).forward with
    | none => (x,travelled)
    | some y =>
      if travelled+(levelAt nodes x i).span ≤ target then
        seekNode nodes target i fuel y (travelled+(levelAt nodes x i).span)
      else (x,travelled)

def nodeLevels (nodes : ℕ → SkipNode K) (target fuel : ℕ) : ℕ → ℕ → ℕ → Option ℕ
  | 0,_,_ => none
  | i+1,x,travelled =>
    let stop := seekNode nodes target i fuel x travelled
    if stop.2=target ∧ stop.1≠header then some stop.1
    else nodeLevels nodes target fuel i stop.1 stop.2

def nodeByRank (sl : SkipList K) (rank : ℕ) : Option ℕ :=
  if sl.length ≤ rank then none
  else nodeLevels sl.nodes (rank+1) sl.length sl.level header 0

theorem seekNode_spec (hl : Linked sl order) {target i : ℕ} (hi : i < sl.level)
    {fuel x travelled : ℕ} {post : List ℕ} (hx : At order x post) (hheight : i < height sl.nodes x)
    (hfuel : post.length ≤ fuel) (hplace : travelled+post.length=order.length)
    (hle : travelled ≤ target) :
    ∃ y t rest,seekNode sl.nodes target i fuel x travelled=(y,t) ∧ At order y rest ∧
      i < height sl.nodes y ∧ t+rest.length=order.length ∧ t ≤ target ∧
      (rest.find? (tall sl.nodes i)≠none → target < t+gap (tall sl.nodes i) rest) := by
  induction fuel generalizing x travelled post with
  | zero =>
    have hnil : post=[] := length_eq_zero_iff.mp (by omega)
    subst hnil
    exact ⟨x,travelled,[],rfl,hx,hheight,hplace,hle,fun h => absurd rfl h⟩
  | succ fuel ih =>
    rw [seekNode,hl.links x post hx i hi hheight]
    simp only [hop]
    cases hnext : post.find? (tall sl.nodes i) with
    | none => exact ⟨x,travelled,post,rfl,hx,hheight,hplace,hle,fun h => absurd hnext h⟩
    | some y =>
      by_cases hstep : travelled+gap (tall sl.nodes i) post ≤ target
      · obtain ⟨low,behind,rfl,htall,hlow⟩ := find_split hnext
        rw [length_append,length_cons] at hfuel hplace
        rw [gap_low htall hlow] at hstep
        simp only [gap_low htall hlow,if_pos hstep]
        exact ih hx.step htall (by omega) (by omega) hstep
      · exact ⟨x,travelled,post,if_neg hstep,hx,hheight,hplace,hle,fun _ => by omega⟩

theorem At.get {x t : ℕ} {post : List ℕ} (h : At order x post) (ht : t+post.length=order.length) :
    (header::order)[t]?=some x := by
  obtain ⟨pre,hpre⟩ := h
  have hlen := congrArg List.length hpre
  rw [length_cons,length_append,length_cons] at hlen
  rw [hpre,getElem?_append_right (by omega),show t-pre.length=0 by omega]
  rfl

theorem nodeLevels_spec (hl : Linked sl order) {rank : ℕ} (hrank : rank < order.length) {n : ℕ}
    (hn : n ≤ sl.level) (hpos : 0 < n) {x travelled : ℕ} {post : List ℕ} (hx : At order x post)
    (hheight : n ≤ height sl.nodes x) (hplace : travelled+post.length=order.length)
    (hle : travelled ≤ rank+1) :
    nodeLevels sl.nodes (rank+1) sl.length n x travelled=order[rank]? := by
  induction n generalizing x travelled post with
  | zero => exact absurd hpos (lt_irrefl 0)
  | succ n ih =>
    have hfuel : post.length ≤ sl.length := by
      rw [hl.length]
      omega
    obtain ⟨y,t,rest,hstop,hy,hyt,ht,htle,hnext⟩ :=
      seekNode_spec hl (by omega : n < sl.level) hx (by omega) hfuel hplace hle
    rw [nodeLevels,hstop]
    dsimp only
    have hget := hy.get ht
    by_cases hreached : t=rank+1
    · subst hreached
      rw [getElem?_cons_succ] at hget
      have hne : y≠header := by
        rintro rfl
        exact (nodup_cons.mp hl.nodup).1 (mem_of_getElem? hget)
      rw [if_pos ⟨rfl,hne⟩,hget]
    · rw [if_neg fun h => hreached h.1]
      cases n with
      | succ n => exact ih (by omega) (Nat.succ_pos n) hy (by omega) ht htle
      | zero =>
        -- at the bottom every node takes part, so that the next link has length one
        have hfirst := hl.first fun z hz => hy.mem hz
        cases rest with
        | nil =>
          rw [length_nil] at ht
          omega
        | cons z zs =>
          rw [hfirst] at hnext
          have hgap : gap (tall sl.nodes 0) (z::zs)=1 :=
            @gap_low K sl.nodes 0 z [] zs (by simpa [tall] using find?_some hfirst) nofun
          have := hnext (by simp)
          omega

theorem nodeByRank_eq (hl : Linked sl order) (rank : ℕ) : sl.nodeByRank rank=order[rank]? := by
  rw [nodeByRank]
  split
  · rename_i h
    rw [hl.length] at h
    exact (getElem?_eq_none h).symm
  · rename_i h
    rw [hl.length] at h
    exact nodeLevels_spec hl (by omega) le_rfl hl.levelPos (At.start order)
      (by rw [hl.headerHeight]; exact hl.levelMax) (Nat.zero_add _) (Nat.zero_le _)

theorem seekRank_absent (hl : Linked sl order) (reach : K → Bool) {wanted : K → Bool}
    (hno : ∀ x∈order,wanted (sl.nodes x).item=false) {i : ℕ} (hi : i < sl.level) {x : ℕ}
    (hx : x∈header::order) (hheight : i < height sl.nodes x) (fuel rank : ℕ) :
    ∃ y r,seekRank sl.nodes reach wanted i fuel x rank=(none,y,r) ∧ y∈header::order ∧
      i < height sl.nodes y := by
  induction fuel generalizing x rank with
  | zero => exact ⟨x,rank,rfl,hx,hheight⟩
  | succ fuel ih =>
    obtain ⟨pre,post,hpre⟩ := append_of_mem hx
    rw [seekRank,hl.links x post ⟨pre,hpre⟩ i hi hheight]
    simp only [hop]
    cases hnext : post.find? (tall sl.nodes i) with
    | none => exact ⟨x,rank,rfl,hx,hheight⟩
    | some y =>
      have hy : y∈order := At.mem ⟨pre,hpre⟩ (mem_of_find?_eq_some hnext)
      have hyt : i < height sl.nodes y := by simpa [tall] using find?_some hnext
      dsimp only
      split
      · rw [hno y hy]
        exact ih (mem_cons_of_mem _ hy) hyt _
      · exact ⟨x,rank,rfl,hx,hheight⟩

theorem seekLevels_absent (hl : Linked sl order) {reach wanted : K → Bool}
    (hno : ∀ x∈order,wanted (sl.nodes x).item=false) {n : ℕ} (hn : n ≤ sl.level) {x rank : ℕ}
    (hx : x∈header::order) (hheight : n ≤ height sl.nodes x) :
    seekLevels sl.nodes reach wanted sl.length n x rank=none := by
  induction n generalizing x rank with
  | zero => rfl
  | succ n ih =>
    obtain ⟨y,r,hseek,hy,hyt⟩ :=
      seekRank_absent hl reach hno (by omega : n < sl.level) hx (by omega) sl.length rank
    rw [seekLevels,hseek]
    exact ih (by omega) hy hyt.le

theorem Linked.forward_header (hl : Linked sl order) :
    (levelAt sl.nodes header 0).forward=order.head? := by
  rw [hl.links header order (At.start order) 0 hl.levelPos (by rw [hl.headerHeight]; decide)]
  exact hl.first fun z hz => hz

end Search

section Scores

variable {S : Type} [LinearOrder S]

structure Bounds (S : Type) where
  min : S
  max : S
  minExclusive : Bool
  maxExclusive : Bool

namespace Bounds

def isEmpty (r : Bounds S) : Bool :=
  decide (r.max < r.min ∨ r.min=r.max ∧ (r.minExclusive || r.maxExclusive))

def below (r : Bounds S) (score : S) : Bool :=
  if r.minExclusive then score ≤ r.min else score < r.min

def reaches (r : Bounds S) (score : S) : Bool :=
  if r.minExclusive then r.min < score else r.min ≤ score

def above (r : Bounds S) (score : S) : Bool :=
  if r.maxExclusive then r.max ≤ score else r.max < score

def passes (r : Bounds S) (score : S) : Bool :=
  if r.maxExclusive then score < r.max else score ≤ r.max

def containsScore (r : Bounds S) (score : S) : Bool := !r.below score && !r.above score

end Bounds

variable (sl : SkipList (S×Bytes)) (r : Bounds S)

def scoreOf (x : ℕ) : S := (sl.nodes x).item.1

def rankOfPair (item : S×Bytes) : Option ℕ :=
  sl.rankOf (fun x => !decide (Precedes item x)) (fun x => decide (x=item))

def firstInBounds : Option ℕ :=
  if r.isEmpty || sl.length=0 then none
  else
    match sl.tail with
    | none => none
    | some tail =>
      if r.below (sl.scoreOf tail) then none
      else
        match (levelAt sl.nodes ((sl.path fun x => !r.reaches x.1).getD 0 (header,0)).1 0).forward with
        | none => none
        | some node => if r.above (sl.scoreOf node) then none else some node

def lastInBounds : Option ℕ :=
  if r.isEmpty || sl.length=0 then none
  else
    match (levelAt sl.nodes header 0).forward with
    | none => none
    | some first =>
      if r.above (sl.scoreOf first) then none
      else
        let node := ((sl.path fun x => r.passes x.1).getD 0 (header,0)).1
        if node=header then none else if r.below (sl.scoreOf node) then none else some node

def countInBounds : ℕ :=
  match sl.firstInBounds r with
  | none => 0
  | some first =>
    match sl.lastInBounds r with
    | none => 0
    | some last =>
      match sl.rankOfPair (sl.nodes first).item,sl.rankOfPair (sl.nodes last).item with
      | some firstRank,some lastRank => lastRank-firstRank+1
      | _,_ => 0

/-- The lists that insertions of absent members and removals make, with any levels. -/
inductive Made [Inhabited S] : SkipList (S×Bytes) → Prop where
  | empty : Made .empty
  | insert {sl : SkipList (S×Bytes)} (h : Made sl) (score : S) (member : Bytes)
      (habsent : member∉sl.items.map Prod.snd) (level : ℕ) (hpos : 0 < level)
      (hmax : level ≤ maxLevel) :
      Made (sl.insert (fun x => decide (Precedes x (score,member))) (score,member) level)
  | remove {sl : SkipList (S×Bytes)} (h : Made sl) (score : S) (member : Bytes) :
      Made (sl.remove (fun x => decide (Precedes x (score,member)))
        (fun x => decide (x=(score,member)))).2

omit sl r in
theorem Made.reached [Inhabited S] {sl : SkipList (S×Bytes)} (h : Made sl) : Reached sl := by
  induction h with
  | empty => exact .empty
  | insert _ score member habsent level hpos hmax ih =>
    exact ih.insert score member habsent level hpos hmax
  | remove _ score member ih => exact ih.remove score member

variable {sl r} {order : List ℕ}

theorem rankOfPair_eq (hl : Linked sl order) (hsorted : Ascends sl order) {front back : List ℕ}
    {x : ℕ} (hsplit : order=front++x::back) :
    sl.rankOfPair (sl.nodes x).item=some front.length := by
  rw [Ascends,hsplit,pairwise_append,pairwise_cons] at hsorted
  have hitems : itemsOf sl.nodes order=
      itemsOf sl.nodes front++(sl.nodes x).item::itemsOf sl.nodes back := by
    rw [hsplit,itemsOf,map_append,map_cons]
    rfl
  have hbefore : ∀ y∈front,Precedes (sl.nodes y).item (sl.nodes x).item := fun y hy =>
    hsorted.2.2 y hy x mem_cons_self
  have hlength : front.length=(itemsOf sl.nodes front).length := (length_map _).symm
  rw [hlength]
  refine Holds.rankOf ⟨order,hl,rfl⟩ _ _ hitems ?_ ?_ ?_
  · intro k hk
    obtain ⟨y,hy,rfl⟩ := mem_map.mp hk
    have hne : (sl.nodes y).item≠(sl.nodes x).item := fun h => Precedes.irrefl _ (h ▸ hbefore y hy)
    have hnot : ¬Precedes (sl.nodes x).item (sl.nodes y).item := fun h =>
      Precedes.irrefl _ ((hbefore y hy).trans h)
    simp [hne,hnot]
  · simp [Precedes.irrefl]
  · intro k hk
    obtain ⟨y,hy,rfl⟩ := mem_map.mp hk
    simp [hsorted.2.1.1 y hy]

namespace Bounds

theorem reaches_eq (r : Bounds S) (score : S) : (!r.reaches score)=r.below score := by
  unfold reaches below
  grind

theorem passes_eq (r : Bounds S) (score : S) : r.passes score=!r.above score := by
  unfold passes above
  grind

theorem below_of_le {a b : S} (h : a ≤ b) (hb : r.below b=true) : r.below a=true := by
  unfold below at hb ⊢
  grind

theorem above_of_le {a b : S} (h : a ≤ b) (ha : r.above a=true) : r.above b=true := by
  unfold above at ha ⊢
  grind

theorem not_above_of_below (h : ¬r.isEmpty=true) {score : S} (hlow : r.below score=true) :
    r.above score=false := by
  unfold isEmpty at h
  unfold below at hlow
  unfold above
  grind

theorem not_contains_of_isEmpty (h : r.isEmpty=true) (score : S) :
    r.containsScore score=false := by
  unfold isEmpty at h
  unfold containsScore below above
  grind

end Bounds

def inside (sl : SkipList (S×Bytes)) (r : Bounds S) (x : ℕ) : Bool := r.containsScore (sl.scoreOf x)

theorem Ascends.cut (h : Ascends sl order) (test : ℕ → Bool)
    (hdown : ∀ x y,sl.scoreOf x ≤ sl.scoreOf y → test y=true → test x=true) :
    ∃ front rest,order=front++rest ∧ Ascends sl rest ∧ (∀ x∈front,test x=true) ∧
      ∀ x∈rest,test x=false := by
  have hsplit := @takeWhile_append_dropWhile _ test order
  refine ⟨_,_,hsplit.symm,h.sublist (dropWhile_sublist test),?_⟩
  refine split_ascending (hsplit.symm ▸ h) (fun hxy => hdown _ _ hxy.score_le)
    (fun y hy => mem_takeWhile_imp (mem_of_getLast? hy)) fun z hz => ?_
  simpa [hz] using head?_dropWhile_not test order

structure Parts (sl : SkipList (S×Bytes)) (r : Bounds S) (order low mid high : List ℕ) : Prop where
  split : order=low++(mid++high)
  low : ∀ x∈low,r.below (sl.scoreOf x)=true
  rest : ∀ x∈mid++high,r.below (sl.scoreOf x)=false
  mid : ∀ x∈mid,r.above (sl.scoreOf x)=false
  high : ∀ x∈high,r.above (sl.scoreOf x)=true

theorem Ascends.parts (h : Ascends sl order) (r : Bounds S) :
    ∃ low mid high,Parts sl r order low mid high := by
  obtain ⟨low,rest,hsplit,hrest,hlow,hnot⟩ := h.cut (fun x => r.below (sl.scoreOf x))
    fun x y => Bounds.below_of_le
  obtain ⟨mid,high,rfl,-,hmid,hhigh⟩ := hrest.cut (fun x => !r.above (sl.scoreOf x))
    fun x y hxy => by simpa using mt (Bounds.above_of_le (r := r) hxy)
  simp only [Bool.not_eq_true',Bool.not_eq_false'] at hmid hhigh
  exact ⟨low,mid,high,hsplit,hlow,hnot,hmid,hhigh⟩

namespace Parts

variable {low mid high : List ℕ} (h : Parts sl r order low mid high)

include h

theorem inside_low : ∀ x∈low,inside sl r x=false := fun x hx => by
  rw [inside,Bounds.containsScore,h.low x hx]
  rfl

theorem inside_mid : ∀ x∈mid,inside sl r x=true := fun x hx => by
  rw [inside,Bounds.containsScore,h.rest x (mem_append_left _ hx),h.mid x hx]
  rfl

theorem inside_high : ∀ x∈high,inside sl r x=false := fun x hx => by
  rw [inside,Bounds.containsScore,h.high x hx,Bool.not_true,Bool.and_false]

theorem find_eq : order.find? (inside sl r)=mid.head? := by
  have hlow := find?_eq_none.mpr fun x hx => Bool.eq_false_iff.mp (h.inside_low x hx)
  have hhigh := find?_eq_none.mpr fun x hx => Bool.eq_false_iff.mp (h.inside_high x hx)
  rw [h.split,find?_append,hlow,Option.none_or,find?_append,hhigh,Option.or_none]
  cases mid with
  | nil => rfl
  | cons x xs => exact find?_cons_of_pos (h.inside_mid x mem_cons_self)

theorem find_reverse : order.reverse.find? (inside sl r)=mid.getLast? := by
  have hlow := find?_eq_none.mpr fun x hx =>
    Bool.eq_false_iff.mp (h.inside_low x (mem_reverse.mp hx))
  have hhigh := find?_eq_none.mpr fun x hx =>
    Bool.eq_false_iff.mp (h.inside_high x (mem_reverse.mp hx))
  rw [h.split,reverse_append,reverse_append,find?_append,find?_append,hlow,hhigh,Option.none_or,
    Option.or_none]
  rcases eq_nil_or_concat mid with rfl | ⟨front,x,rfl⟩
  · rfl
  · rw [concat_eq_append,reverse_append,getLast?_append]
    exact find?_cons_of_pos (h.inside_mid x (by simp))

theorem count_eq : order.countP (inside sl r)=mid.length := by
  rw [h.split,countP_append,countP_append,countP_eq_length.mpr h.inside_mid,
    countP_eq_zero.mpr fun x hx => Bool.eq_false_iff.mp (h.inside_low x hx),
    countP_eq_zero.mpr fun x hx => Bool.eq_false_iff.mp (h.inside_high x hx)]
  omega

theorem mid_of_none (hl : Linked sl order) (hnone : (r.isEmpty || sl.length=0)=true) :
    mid=[] := by
  rw [Bool.or_eq_true,decide_eq_true_iff,hl.length,length_eq_zero_iff] at hnone
  rcases hnone with hempty | rfl
  · refine eq_nil_iff_forall_not_mem.mpr fun x hx => ?_
    have hin := h.inside_mid x hx
    rw [inside,Bounds.not_contains_of_isEmpty hempty] at hin
    cases hin
  · exact (append_eq_nil_iff.mp (append_eq_nil_iff.mp h.split.symm).2).1

theorem first_eq (hl : Linked sl order) : sl.firstInBounds r=mid.head? := by
  obtain ⟨front,rest,hsplit,-,-,hnext,hlast,hhead⟩ :=
    search_linked hl fun x => !r.reaches x.1
  simp only [Bounds.reaches_eq] at hlast hhead
  obtain ⟨rfl,rfl⟩ := split_unique (h.split.symm.trans hsplit) h.low h.rest hlast hhead
  rw [firstInBounds,hnext,hl.tail]
  split
  · rename_i hnone
    rw [h.mid_of_none hl hnone]
    rfl
  cases mid with
  | cons x xs =>
    obtain ⟨last,hin,hlast⟩ : ∃ last∈x::xs++high,order.getLast?=some last := by
      rw [h.split,getLast?_append]
      exact ⟨_,getLast_mem (by simp),by rw [getLast?_eq_getLast_of_ne_nil (by simp),Option.some_or]⟩
    rw [hlast]
    dsimp only
    rw [h.rest last hin,if_neg Bool.false_ne_true,cons_append,head?_cons]
    dsimp only
    rw [h.mid x mem_cons_self,if_neg Bool.false_ne_true]
    rfl
  | nil =>
    cases order.getLast? with
    | none => rfl
    | some last =>
      dsimp only
      split
      · rfl
      cases high with
      | nil => rfl
      | cons x xs =>
        rw [nil_append,head?_cons]
        dsimp only
        rw [h.high x mem_cons_self,if_pos rfl]
        rfl

theorem last_eq (hl : Linked sl order) : sl.lastInBounds r=mid.getLast? := by
  obtain ⟨front,rest,hsplit,-,hat,-,hlast,hhead⟩ := search_linked hl fun x => r.passes x.1
  simp only [Bounds.passes_eq] at hlast hhead
  have hbefore := hat.before hl.nodup hsplit
  rw [lastInBounds]
  split
  · rename_i hnone
    rw [h.mid_of_none hl hnone]
    rfl
  rename_i hsome
  rw [Bool.or_eq_true,not_or] at hsome
  have hnot : ∀ x∈low++mid,r.above (sl.scoreOf x)=false := fun x hx =>
    (mem_append.mp hx).elim (fun hx => Bounds.not_above_of_below hsome.1 (h.low x hx)) (h.mid x)
  have hparts : order=(low++mid)++high := by rw [append_assoc,h.split]
  obtain ⟨rfl,rfl⟩ := @split_unique _ (fun x => !r.above (sl.scoreOf x)) _ _ _ _
    (hparts.symm.trans hsplit) (fun x hx => by rw [hnot x hx]; rfl)
    (fun x hx => by rw [h.high x hx]; rfl) hlast hhead
  rw [hl.forward_header]
  generalize ((sl.path fun x => r.passes x.1).getD 0 (header,0)).1=node at hbefore ⊢
  rcases eq_nil_or_concat mid with rfl | ⟨front,last,rfl⟩
  · rw [append_nil] at hbefore
    cases order.head? with
    | none => rfl
    | some first =>
      dsimp only
      split_ifs with habove hheader hbelow
      · rfl
      · rfl
      · rfl
      · rw [if_neg hheader] at hbefore
        exact absurd (h.low node (mem_of_getLast? hbefore.symm)) hbelow
  · rw [concat_eq_append] at h hnot hparts hbefore ⊢
    have hne : low++(front++[last])≠[] := by simp
    have hfirst : order.head?=some (head _ hne) := by
      rw [hparts,head?_append,head?_eq_some_head hne,Option.some_or]
    rw [← append_assoc,getLast?_concat] at hbefore
    obtain ⟨hheader,rfl⟩ : node≠header ∧ node=last := by
      split_ifs at hbefore with hheader
      exact ⟨hheader,Option.some.inj hbefore⟩
    rw [hfirst]
    dsimp only
    rw [hnot _ (head_mem hne),if_neg Bool.false_ne_true,if_neg hheader,h.rest node (by simp),
      if_neg Bool.false_ne_true,getLast?_concat]

theorem inBounds_count (hl : Linked sl order) (hsorted : Ascends sl order) :
    sl.countInBounds r=mid.length := by
  rw [countInBounds,h.first_eq hl,h.last_eq hl]
  cases hmid : mid with
  | nil => rfl
  | cons x xs =>
    have hne : x::xs≠[] := nofun
    have hfirst : order=low++x::(xs++high) := by rw [h.split,hmid,cons_append]
    have hlast : order=(low++(x::xs).dropLast)++(x::xs).getLast hne::high := by
      rw [h.split,hmid,append_assoc,append_cons (x::xs).dropLast,dropLast_append_getLast]
    rw [head?_cons,getLast?_eq_getLast_of_ne_nil hne]
    dsimp only
    rw [rankOfPair_eq hl hsorted hfirst,rankOfPair_eq hl hsorted hlast]
    simp

end Parts

theorem rankOfPair_findIdx (hl : Linked sl order) (hsorted : Ascends sl order) (item : S×Bytes) :
    sl.rankOfPair item=order.findIdx? fun x => (sl.nodes x).item=item := by
  by_cases hin : ∃ x∈order,(sl.nodes x).item=item
  · obtain ⟨x,hx,rfl⟩ := hin
    obtain ⟨front,back,hsplit⟩ := append_of_mem hx
    have hfront : ∀ y∈front,decide ((sl.nodes y).item=(sl.nodes x).item)=false := by
      intro y hy
      refine decide_eq_false fun heq => Precedes.irrefl (sl.nodes x).item ?_
      rw [Ascends,hsplit,pairwise_append] at hsorted
      exact heq ▸ hsorted.2.2 y hy x mem_cons_self
    rw [rankOfPair_eq hl hsorted hsplit,hsplit,findIdx?_append,findIdx?_eq_none_iff.mpr hfront,
      findIdx?_cons,decide_eq_true rfl]
    simp
  · have hno : ∀ x∈order,decide ((sl.nodes x).item=item)=false := fun x hx =>
      decide_eq_false fun h => hin ⟨x,hx,h⟩
    rw [findIdx?_eq_none_iff.mpr hno]
    exact seekLevels_absent hl hno le_rfl mem_cons_self (hl.headerHeight ▸ hl.levelMax)

def bottom (sl : SkipList (S×Bytes)) : List ℕ := walk sl.nodes sl.length header

/-- Of every list made by insertions of absent members and removals: the bottom level ascends;
the rank of a pair is its position there; the node of a rank is the one at that position; the
ends of a range are its first and last nodes with a score in it, and its count their number. -/
theorem Made.queries [Inhabited S] (h : Made sl) :
    Ascends sl (bottom sl) ∧ (bottom sl).length=sl.length ∧
    (∀ item,sl.rankOfPair item=(bottom sl).findIdx? fun x => (sl.nodes x).item=item) ∧
    (∀ rank,sl.nodeByRank rank=(bottom sl)[rank]?) ∧
    (∀ item rank,sl.rankOfPair item=some rank ↔
      ∃ x,sl.nodeByRank rank=some x ∧ (sl.nodes x).item=item) ∧
    ∀ r : Bounds S,
      sl.firstInBounds r=(bottom sl).find? (inside sl r) ∧
      sl.lastInBounds r=(bottom sl).reverse.find? (inside sl r) ∧
      sl.countInBounds r=(bottom sl).countP (inside sl r) := by
  obtain ⟨order,hl,hascends,-,-⟩ := h.reached.represents
  have hwalk : bottom sl=order := walk_at hl (At.start order) (by rw [hl.length])
  rw [hwalk]
  refine ⟨hascends,hl.length.symm,rankOfPair_findIdx hl hascends,nodeByRank_eq hl,
    fun item rank => ?_,fun r => ?_⟩
  · rw [nodeByRank_eq hl]
    constructor
    · intro hrank
      rw [rankOfPair_findIdx hl hascends,findIdx?_eq_some_iff_getElem] at hrank
      obtain ⟨hlt,hitem,-⟩ := hrank
      exact ⟨order[rank],getElem?_eq_getElem hlt,of_decide_eq_true hitem⟩
    · rintro ⟨x,hx,rfl⟩
      obtain ⟨hlt,rfl⟩ := List.getElem?_eq_some_iff.mp hx
      have hsplit : order=order.take rank++order[rank]::order.drop (rank+1) := by simp
      rw [rankOfPair_eq hl hascends hsplit,length_take_of_le hlt.le]
  · obtain ⟨low,mid,high,hparts⟩ := hascends.parts r
    rw [hparts.find_eq,hparts.find_reverse,hparts.count_eq]
    exact ⟨hparts.first_eq hl,hparts.last_eq hl,hparts.inBounds_count hl hascends⟩

end Scores

def twoNodes : SkipList (ℕ×Bytes) :=
  (empty.insert (fun x => decide (Precedes x (7,[97]))) (7,[97]) 2).insert
    (fun x => decide (Precedes x (3,[98]))) (3,[98]) 1

theorem queries_twoNodes : bottom twoNodes=[2,1] ∧ twoNodes.rankOfPair (7,[97])=some 1 ∧
    twoNodes.nodeByRank 1=some 1 ∧ twoNodes.firstInBounds ⟨3,7,true,false⟩=some 1 ∧
    twoNodes.countInBounds ⟨3,7,false,false⟩=2 := by
  have hmade : Made twoNodes :=
    (Made.empty.insert 7 [97] nofun 2 (by decide) (by decide)).insert 3 [98] (by decide) 1
      (by decide) (by decide)
  obtain ⟨-,-,hrank,hnode,-,hrange⟩ := hmade.queries
  rw [hrank,hnode,(hrange _).1,(hrange _).2.2]
  decide

end SkipList

end Mnemos
