import Mathlib.Data.List.Basic
import Mathlib.Data.List.GetD
import Mathlib.Data.List.Induction
import Mathlib.Data.List.Nodup
import Mathlib.Data.Nat.Basic
import Mathlib.Logic.Function.Basic

/-!
# Skip lists with spans

Nodes live at addresses, node 0 is the header, and every level of a node holds
the address of the next node that tall and the number of bottom positions the
link covers.
-/

namespace Mnemos

structure SkipLevel where
  forward : Option ℕ
  span : ℕ
deriving DecidableEq,Repr

structure SkipNode (K : Type) where
  item : K
  backward : Option ℕ
  levels : List SkipLevel

structure SkipList (K : Type) where
  nodes : ℕ → SkipNode K
  next : ℕ
  tail : Option ℕ
  length : ℕ
  level : ℕ

namespace SkipList

def maxLevel : ℕ := 32

def header : ℕ := 0

section Definitions

variable {K : Type}

def empty [Inhabited K] : SkipList K :=
  ⟨fun _ => ⟨default,none,List.replicate maxLevel ⟨none,0⟩⟩,1,none,0,1⟩

def height (nodes : ℕ → SkipNode K) (x : ℕ) : ℕ := (nodes x).levels.length

def levelAt (nodes : ℕ → SkipNode K) (x i : ℕ) : SkipLevel := (nodes x).levels.getD i ⟨none,0⟩

def setLevel (nodes : ℕ → SkipNode K) (x i : ℕ) (l : SkipLevel) : ℕ → SkipNode K :=
  Function.update nodes x { nodes x with levels := (nodes x).levels.set i l }

def setBackward (nodes : ℕ → SkipNode K) (x : ℕ) (b : Option ℕ) : ℕ → SkipNode K :=
  Function.update nodes x { nodes x with backward := b }

/-- Walk right at level `i` while the next item passes the test. -/
def advance (nodes : ℕ → SkipNode K) (test : K → Bool) (i : ℕ) : ℕ → ℕ → ℕ → ℕ×ℕ
  | 0,x,rank => (x,rank)
  | fuel+1,x,rank =>
    match (levelAt nodes x i).forward with
    | none => (x,rank)
    | some y =>
      if test (nodes y).item then advance nodes test i fuel y (rank+(levelAt nodes x i).span)
      else (x,rank)

/-- Walk down from level `i-1`; entry `j` of the result is the node where level `j`
was left and the distance travelled to it. -/
def descend (nodes : ℕ → SkipNode K) (test : K → Bool) (fuel : ℕ) : ℕ → ℕ → ℕ → List (ℕ×ℕ)
  | 0,_,_ => []
  | i+1,x,rank =>
    let stop := advance nodes test i fuel x rank
    descend nodes test fuel i stop.1 stop.2++[stop]

def path (sl : SkipList K) (test : K → Bool) : List (ℕ×ℕ) :=
  descend sl.nodes test sl.length sl.level header 0

def grow (sl : SkipList K) (newLevel : ℕ) : SkipList K :=
  { sl with
    nodes := (List.range' sl.level (newLevel-sl.level)).foldl
      (fun nodes i =>
        setLevel nodes header i { levelAt nodes header i with span := sl.length }) sl.nodes
    level := max sl.level newLevel }

/-- Link a new node into level `i` behind the node where the search left that level. -/
def linkLevel (id : ℕ) (path : List (ℕ×ℕ)) (nodes : ℕ → SkipNode K) (i : ℕ) : ℕ → SkipNode K :=
  let stop := path.getD i (header,0)
  let distance := (path.getD 0 (header,0)).2-stop.2
  let old := levelAt nodes stop.1 i
  setLevel (setLevel nodes id i ⟨old.forward,old.span-distance⟩) stop.1 i ⟨some id,distance+1⟩

/-- Let the link of level `i` that crosses a new node span one more position. -/
def widenLevel (path : List (ℕ×ℕ)) (nodes : ℕ → SkipNode K) (i : ℕ) : ℕ → SkipNode K :=
  let stop := path.getD i (header,0)
  let old := levelAt nodes stop.1 i
  setLevel nodes stop.1 i { old with span := old.span+1 }

/-- The end of an insertion: the node behind the new one points back to it, or it is the tail. -/
def finishInsert (sl : SkipList K) (id : ℕ) (nodes : ℕ → SkipNode K) : SkipList K :=
  match (levelAt nodes id 0).forward with
  | some after =>
    { sl with nodes := setBackward nodes after (some id), next := id+1, length := sl.length+1 }
  | none => { sl with nodes := nodes, next := id+1, tail := some id, length := sl.length+1 }

def insert (sl : SkipList K) (test : K → Bool) (item : K) (newLevel : ℕ) : SkipList K :=
  let path := sl.path test++List.replicate (newLevel-sl.level) (header,0)
  let sl := sl.grow newLevel
  let id := sl.next
  let nodes := Function.update sl.nodes id ⟨item,none,List.replicate newLevel ⟨none,0⟩⟩
  let nodes := (List.range newLevel).foldl (linkLevel id path) nodes
  let nodes := (List.range' newLevel (sl.level-newLevel)).foldl (widenLevel path) nodes
  let before := (path.getD 0 (header,0)).1
  let nodes := setBackward nodes id (if before=header then none else some before)
  sl.finishInsert id nodes

/-- Take a node out of level `i`, or let the link that crosses it span one less. -/
def unlinkLevel (target : ℕ) (path : List (ℕ×ℕ)) (nodes : ℕ → SkipNode K) (i : ℕ) :
    ℕ → SkipNode K :=
  let stop := path.getD i (header,0)
  let old := levelAt nodes stop.1 i
  if old.forward=some target then
    let gone := levelAt nodes target i
    setLevel nodes stop.1 i ⟨gone.forward,old.span+gone.span-1⟩
  else setLevel nodes stop.1 i { old with span := old.span-1 }

def dropLevels (nodes : ℕ → SkipNode K) : ℕ → ℕ
  | 0 => 0
  | 1 => 1
  | level+2 =>
    if (levelAt nodes header (level+1)).forward=none then dropLevels nodes (level+1) else level+2

def remove (sl : SkipList K) (test wanted : K → Bool) : Bool×SkipList K :=
  let path := sl.path test
  match (levelAt sl.nodes (path.getD 0 (header,0)).1 0).forward with
  | none => (false,sl)
  | some target =>
    if wanted (sl.nodes target).item then
      let nodes := (List.range sl.level).foldl (unlinkLevel target path) sl.nodes
      let before := (nodes target).backward
      match (levelAt nodes target 0).forward with
      | some after =>
        let nodes := setBackward nodes after before
        (true,{ sl with
          nodes := nodes
          length := sl.length-1
          level := dropLevels nodes sl.level })
      | none =>
        (true,{ sl with
          nodes := nodes
          tail := before
          length := sl.length-1
          level := dropLevels nodes sl.level })
    else (false,sl)

def walk (nodes : ℕ → SkipNode K) : ℕ → ℕ → List ℕ
  | 0,_ => []
  | fuel+1,x =>
    match (levelAt nodes x 0).forward with
    | none => []
    | some y => y::walk nodes fuel y

def items (sl : SkipList K) : List K :=
  (walk sl.nodes sl.length header).map fun x => (sl.nodes x).item

/-- One level of a rank search: walk right while the item is not beyond the wanted one, and
stop at the wanted one with its rank. -/
def seekRank (nodes : ℕ → SkipNode K) (reach wanted : K → Bool) (i : ℕ) :
    ℕ → ℕ → ℕ → Option ℕ×ℕ×ℕ
  | 0,x,rank => (none,x,rank)
  | fuel+1,x,rank =>
    match (levelAt nodes x i).forward with
    | none => (none,x,rank)
    | some y =>
      if reach (nodes y).item then
        let rank := rank+(levelAt nodes x i).span
        if wanted (nodes y).item then (some (rank-1),y,rank)
        else seekRank nodes reach wanted i fuel y rank
      else (none,x,rank)

def seekLevels (nodes : ℕ → SkipNode K) (reach wanted : K → Bool) (fuel : ℕ) :
    ℕ → ℕ → ℕ → Option ℕ
  | 0,_,_ => none
  | i+1,x,rank =>
    match seekRank nodes reach wanted i fuel x rank with
    | (some found,_,_) => some found
    | (none,y,rank) => seekLevels nodes reach wanted fuel i y rank

/-- Position of the wanted item; `reach` holds of the items not beyond it. -/
def rankOf (sl : SkipList K) (reach wanted : K → Bool) : Option ℕ :=
  seekLevels sl.nodes reach wanted sl.length sl.level header 0

end Definitions

end SkipList

end Mnemos

/-! ## The links of a skip list -/

namespace Mnemos.SkipList

open List

variable {K : Type}

def gap (tall : ℕ → Bool) : List ℕ → ℕ
  | [] => 0
  | y::ys => if tall y then 1 else gap tall ys+1

def hop (tall : ℕ → Bool) (post : List ℕ) : SkipLevel := ⟨post.find? tall,gap tall post⟩

theorem hop_append_low {tall : ℕ → Bool} {mid : List ℕ} (h : ∀ z∈mid,tall z=false)
    (post : List ℕ) : hop tall (mid++post)=⟨post.find? tall,mid.length+gap tall post⟩ := by
  induction mid with
  | nil => simp [hop]
  | cons z mid ih =>
    have hz := h z mem_cons_self
    have ih := ih fun y hy => h y (mem_cons_of_mem z hy)
    rw [hop,SkipLevel.mk.injEq] at ih ⊢
    rw [cons_append,find?_cons,gap,hz]
    refine ⟨ih.1,?_⟩
    rw [if_neg Bool.false_ne_true,ih.2,length_cons]
    omega

theorem hop_append_high {tall : ℕ → Bool} {mid : List ℕ} (h : ∃ z∈mid,tall z=true)
    (post : List ℕ) : hop tall (mid++post)=hop tall mid := by
  induction mid with
  | nil =>
    obtain ⟨z,hz,-⟩ := h
    cases hz
  | cons z mid ih =>
    rw [hop,hop,SkipLevel.mk.injEq,cons_append,find?_cons,find?_cons,gap,gap]
    cases hz : tall z with
    | true => exact ⟨rfl,rfl⟩
    | false =>
      have hmid : ∃ y∈mid,tall y=true := by
        obtain ⟨y,hy,ht⟩ := h
        cases mem_cons.mp hy with
        | inl heq =>
          rw [heq,hz] at ht
          cases ht
        | inr hin => exact ⟨y,hin,ht⟩
      have ih := ih hmid
      rw [hop,hop,SkipLevel.mk.injEq] at ih
      refine ⟨ih.1,?_⟩
      rw [if_neg Bool.false_ne_true,if_neg Bool.false_ne_true,ih.2]

variable {post : List ℕ} {x y : ℕ}

theorem hop_congr {tall tall' : ℕ → Bool} (h : ∀ z∈post,tall z=tall' z) :
    hop tall post=hop tall' post := by
  induction post with
  | nil => rfl
  | cons z post ih =>
    have hz := h z mem_cons_self
    have ih := ih fun y hy => h y (mem_cons_of_mem z hy)
    rw [hop,hop,SkipLevel.mk.injEq] at ih ⊢
    rw [find?_cons,find?_cons,gap,gap,hz,ih.1,ih.2]
    exact ⟨rfl,rfl⟩

def tall (nodes : ℕ → SkipNode K) (i x : ℕ) : Bool := i < height nodes x

section Nodes

open Function

variable (nodes : ℕ → SkipNode K) (x y i j : ℕ) (l : SkipLevel) (b : Option ℕ)

@[simp] theorem height_setLevel : height (setLevel nodes x i l) y=height nodes y := by
  unfold height setLevel
  by_cases h : y=x
  · rw [h,update_self,length_set]
  · rw [update_of_ne h]

@[simp] theorem item_setLevel : (setLevel nodes x i l y).item=(nodes y).item := by
  unfold setLevel
  by_cases h : y=x
  · rw [h,update_self]
  · rw [update_of_ne h]

@[simp] theorem backward_setLevel : (setLevel nodes x i l y).backward=(nodes y).backward := by
  unfold setLevel
  by_cases h : y=x
  · rw [h,update_self]
  · rw [update_of_ne h]

theorem levelAt_setLevel : levelAt (setLevel nodes x i l) y j=
    if y=x ∧ j=i ∧ i < height nodes x then l else levelAt nodes y j := by
  unfold levelAt setLevel height
  by_cases hy : y=x
  · rw [hy,update_self]
    by_cases hj : j=i
    · rw [hj]
      by_cases hi : i < (nodes x).levels.length
      · rw [if_pos ⟨rfl,rfl,hi⟩,getD_eq_getElem?_getD,getElem?_set_self hi]
        rfl
      · rw [if_neg (fun h => hi h.2.2),set_eq_of_length_le (by omega)]
    · rw [if_neg (fun h => hj h.2.1),getD_eq_getElem?_getD,
        getElem?_set_ne (fun h => hj h.symm),← getD_eq_getElem?_getD]
  · rw [update_of_ne hy,if_neg (fun h => hy h.1)]

@[simp] theorem height_setBackward : height (setBackward nodes x b) y=height nodes y := by
  unfold height setBackward
  by_cases h : y=x
  · rw [h,update_self]
  · rw [update_of_ne h]

@[simp] theorem levelAt_setBackward :
    levelAt (setBackward nodes x b) y j=levelAt nodes y j := by
  unfold levelAt setBackward
  by_cases h : y=x
  · rw [h,update_self]
  · rw [update_of_ne h]

@[simp] theorem item_setBackward : (setBackward nodes x b y).item=(nodes y).item := by
  unfold setBackward
  by_cases h : y=x
  · rw [h,update_self]
  · rw [update_of_ne h]

theorem backward_setBackward : (setBackward nodes x b y).backward=
    if y=x then b else (nodes y).backward := by
  unfold setBackward
  by_cases h : y=x
  · rw [h,update_self,if_pos rfl]
  · rw [update_of_ne h,if_neg h]

end Nodes

/-- Node `x` stands in the bottom order, or is the header, with these nodes behind it. -/
def At (order : List ℕ) (x : ℕ) (post : List ℕ) : Prop := ∃ pre,header::order=pre++x::post

/-- Every link leads to the first tall node behind it. -/
structure Linked (sl : SkipList K) (order : List ℕ) : Prop where
  nodup : (header::order).Nodup
  allocated : ∀ x∈header::order,x < sl.next
  headerHeight : height sl.nodes header=maxLevel
  heights : ∀ x∈order,0 < height sl.nodes x ∧ height sl.nodes x ≤ sl.level
  levelPos : 0 < sl.level
  levelMax : sl.level ≤ maxLevel
  links : ∀ x post,At order x post → ∀ i,i < sl.level → i < height sl.nodes x →
    levelAt sl.nodes x i=hop (tall sl.nodes i) post
  unused : ∀ i,sl.level ≤ i → (levelAt sl.nodes header i).forward=none
  length : sl.length=order.length
  tail : sl.tail=order.getLast?
  backward : ∀ pre x post,order=pre++x::post → (sl.nodes x).backward=pre.getLast?

theorem At.unique {order post post' : List ℕ} {x : ℕ} (hn : (header::order).Nodup)
    (h : At order x post) (h' : At order x post') : post=post' := by
  obtain ⟨pre,hpre⟩ := h
  obtain ⟨pre',hpre'⟩ := h'
  rw [hpre,nodup_append] at hn
  have hbefore : x∉pre := fun hx => hn.2.2 x hx x mem_cons_self rfl
  have hbehind : x∉post := (nodup_cons.mp hn.2.1).1
  exact ((append_cons_inj_of_notMem hbefore hbehind).mp (hpre.symm.trans hpre')).2.2

theorem At.step {order mid post : List ℕ} (h : At order x (mid++y::post)) :
    At order y post := by
  obtain ⟨pre,hpre⟩ := h
  exact ⟨pre++x::mid,by rw [hpre,append_assoc,cons_append]⟩

theorem At.start (order : List ℕ) : At order header order := ⟨[],rfl⟩

theorem At.mem {order post : List ℕ} (h : At order x post) (hy : y∈post) :
    y∈order := by
  obtain ⟨pre,hpre⟩ := h
  cases pre with
  | nil =>
    rw [nil_append,List.cons.injEq] at hpre
    rw [hpre.2]
    exact hy
  | cons z pre =>
    rw [cons_append,List.cons.injEq] at hpre
    rw [hpre.2]
    exact mem_append_right _ (mem_cons_of_mem x hy)

theorem At.self {order post : List ℕ} {x : ℕ} (h : At order x post) : x∈header::order := by
  obtain ⟨pre,hpre⟩ := h
  rw [hpre]
  exact mem_append_right _ mem_cons_self

theorem At.compare {order post post' : List ℕ} (h : At order x post) (h' : At order y post') :
    (x=y ∧ post=post') ∨ (∃ mid,post=mid++y::post') ∨
      ∃ mid,post'=mid++x::post := by
  obtain ⟨pre,hpre⟩ := h
  obtain ⟨pre',hpre'⟩ := h'
  have heq := hpre.symm.trans hpre'
  rw [append_eq_append_iff] at heq
  cases heq with
  | inl h =>
    obtain ⟨mid,hmid,hpost⟩ := h
    cases mid with
    | nil =>
      rw [nil_append,List.cons.injEq] at hpost
      exact .inl hpost
    | cons z mid =>
      rw [cons_append,List.cons.injEq] at hpost
      exact .inr (.inl ⟨mid,hpost.2⟩)
  | inr h =>
    obtain ⟨mid,hmid,hpost⟩ := h
    cases mid with
    | nil =>
      rw [nil_append,List.cons.injEq] at hpost
      exact .inl ⟨hpost.1.symm,hpost.2.symm⟩
    | cons z mid =>
      rw [cons_append,List.cons.injEq] at hpost
      exact .inr (.inr ⟨mid,hpost.2⟩)

/-- Where a walk along level `i` stops: it crossed `mid`, every tall node of which passes the
test, and the next tall node fails it. -/
structure Stopped (nodes : ℕ → SkipNode K) (order : List ℕ) (test : K → Bool) (i x rank : ℕ)
    (post : List ℕ) (stop : ℕ×ℕ) (mid rest : List ℕ) : Prop where
  split : post=mid++rest
  place : At order stop.1 rest
  isTall : i < height nodes stop.1
  rank : stop.2=rank+mid.length
  stay : mid=[] → stop.1=x
  passed : mid≠[] → test (nodes stop.1).item=true
  crossed : ∀ z∈mid,i < height nodes z → test (nodes z).item=true
  blocked : ∀ z,rest.find? (tall nodes i)=some z → test (nodes z).item=false

theorem Stopped.here {nodes : ℕ → SkipNode K} {order : List ℕ} {test : K → Bool} {i x : ℕ}
    (rank : ℕ) (hx : At order x post) (hheight : i < height nodes x)
    (hblocked : ∀ z,post.find? (tall nodes i)=some z → test (nodes z).item=false) :
    Stopped nodes order test i x rank post (x,rank) [] post :=
  ⟨rfl,hx,hheight,rfl,fun _ => rfl,fun h => absurd rfl h,nofun,
    hblocked⟩

theorem find_split {nodes : ℕ → SkipNode K} {i y : ℕ} (h : post.find? (tall nodes i)=some y) :
    ∃ low rest,post=low++y::rest ∧ i < height nodes y ∧ ∀ z∈low,tall nodes i z=false := by
  obtain ⟨hy,low,rest,hsplit,hlow⟩ := find?_eq_some_iff_append.mp h
  exact ⟨low,rest,hsplit,by simpa [tall] using hy,fun z hz => by simpa using hlow z hz⟩

theorem gap_low {nodes : ℕ → SkipNode K} {i y : ℕ} {low behind : List ℕ}
    (hy : i < height nodes y) (hlow : ∀ z∈low,tall nodes i z=false) :
    gap (tall nodes i) (low++y::behind)=low.length+1 := by
  have h := congrArg SkipLevel.span (hop_append_low hlow (y::behind))
  have hty : tall nodes i y=true := by simpa [tall] using hy
  simpa [hop,gap,hty] using h

section Search

variable {sl : SkipList K} {order : List ℕ} {test : K → Bool}

theorem advance_stopped (hl : Linked sl order) (test : K → Bool) {i : ℕ} (hi : i < sl.level)
    {fuel x : ℕ}
    {post : List ℕ} (hx : At order x post) (hheight : i < height sl.nodes x)
    (hfuel : post.length ≤ fuel) (rank : ℕ) :
    ∃ mid rest,Stopped sl.nodes order test i x rank post (advance sl.nodes test i fuel x rank)
      mid rest := by
  induction fuel generalizing x post rank with
  | zero =>
    have hnil : post=[] := length_eq_zero_iff.mp (by omega)
    subst hnil
    exact ⟨[],[],Stopped.here rank hx hheight nofun⟩
  | succ fuel ih =>
    have hlink := hl.links x post hx i hi hheight
    rw [advance,hlink]
    cases hnext : post.find? (tall sl.nodes i) with
    | none =>
      simp only [hop,hnext]
      refine ⟨[],post,Stopped.here rank hx hheight fun z hz => ?_⟩
      rw [hnext] at hz
      cases hz
    | some y =>
      simp only [hop,hnext]
      cases hy : test (sl.nodes y).item with
      | false =>
        rw [if_neg Bool.false_ne_true]
        refine ⟨[],post,Stopped.here rank hx hheight fun z hz => ?_⟩
        rw [hnext,Option.some.injEq] at hz
        rw [← hz]
        exact hy
      | true =>
        obtain ⟨low,behind,rfl,htall,hlow⟩ := find_split hnext
        have hlen : behind.length ≤ fuel := by
          simp only [length_append,length_cons] at hfuel
          omega
        obtain ⟨mid,rest,hs⟩ := ih hx.step htall hlen (rank+(low.length+1))
        rw [if_pos rfl,gap_low htall hlow]
        refine ⟨low++y::mid,rest,?_,hs.place,hs.isTall,?_,fun h => by simp at h,fun _ => ?_,
          fun z hz hzt => ?_,hs.blocked⟩
        · rw [hs.split,append_assoc,cons_append]
        · rw [hs.rank,length_append,length_cons]
          omega
        · by_cases hmid : mid=[]
          · rw [hs.stay hmid]
            exact hy
          · exact hs.passed hmid
        · cases mem_append.mp hz with
          | inl hin =>
            have h := hlow z hin
            rw [tall,decide_eq_false_iff_not] at h
            exact absurd hzt h
          | inr hin =>
            cases mem_cons.mp hin with
            | inl heq =>
              rw [heq]
              exact hy
            | inr hin => exact hs.crossed z hin hzt

/-- A search path in front of `rest`: at every level it remembers the last tall node before
`rest` and the distance to it. -/
structure PathTo (nodes : ℕ → SkipNode K) (order : List ℕ) (levels : ℕ) (p : List (ℕ×ℕ))
    (total : ℕ) (rest : List ℕ) : Prop where
  length : p.length=levels
  /-- The last tall node, the low nodes up to `rest`, and the distance. -/
  entry : ∀ i,i < levels → ∃ mid,At order (p.getD i (header,0)).1 (mid++rest) ∧
    i < height nodes (p.getD i (header,0)).1 ∧ (∀ z∈mid,tall nodes i z=false) ∧
    (p.getD i (header,0)).2+mid.length=total

/-- How the bottom end of a search path relates to its start and the test. -/
structure Bottom (nodes : ℕ → SkipNode K) (test : K → Bool) (p : List (ℕ×ℕ)) (x : ℕ)
    (mid rest : List ℕ) : Prop where
  stay : mid=[] → (p.getD 0 (header,0)).1=x
  passed : mid≠[] → test (nodes (p.getD 0 (header,0)).1).item=true
  blocked : ∀ z,rest.find? (tall nodes 0)=some z → test (nodes z).item=false

/-- A stop at level `n` extends a path below it: no node tall enough for level `n` is crossed
below, because the next such node fails the test. -/
theorem crossed_below {nodes : ℕ → SkipNode K} {n x rank : ℕ} {stop : ℕ×ℕ}
    {post mid rest mid' rest' : List ℕ} (hs : Stopped nodes order test n x rank post stop mid rest)
    (hrest : rest=mid'++rest')
    (hbelow : ∀ z∈mid',n ≤ height nodes z → test (nodes z).item=true) :
    ∀ z∈mid',tall nodes n z=false := by
  intro z hz
  by_contra hcon
  have hzt : tall nodes n z=true := by simpa using hcon
  cases hfind : mid'.find? (tall nodes n) with
  | none => exact absurd hzt (find?_eq_none.mp hfind z hz)
  | some y =>
    have hy := find?_some hfind
    have hblock := hs.blocked y (by rw [hrest,find?_append,hfind]; rfl)
    have hpass := hbelow y (mem_of_find?_eq_some hfind) (by
      rw [tall,decide_eq_true_iff] at hy
      omega)
    rw [hpass] at hblock
    cases hblock

theorem descend_path (hl : Linked sl order) (test : K → Bool) {n : ℕ} (hn : n ≤ sl.level)
    {fuel x : ℕ}
    {post : List ℕ} (hx : At order x post) (hheight : n ≤ height sl.nodes x)
    (hfuel : post.length ≤ fuel) (rank : ℕ) :
    ∃ mid rest,post=mid++rest ∧
      PathTo sl.nodes order n (descend sl.nodes test fuel n x rank) (rank+mid.length) rest ∧
      (∀ z∈mid,n ≤ height sl.nodes z → test (sl.nodes z).item=true) ∧
      (0 < n → Bottom sl.nodes test (descend sl.nodes test fuel n x rank) x mid rest) := by
  induction n generalizing x post rank with
  | zero =>
    exact ⟨[],post,rfl,⟨rfl,fun i hi => absurd hi (Nat.not_lt_zero i)⟩,
      nofun,fun h => absurd h (lt_irrefl 0)⟩
  | succ n ih =>
    obtain ⟨mid,rest,hs⟩ := advance_stopped hl test (show n < sl.level by omega) hx (by omega) hfuel rank
    generalize hstop : advance sl.nodes test n fuel x rank=stop at hs
    have hlen : rest.length ≤ fuel := by
      have := congrArg List.length hs.split
      rw [length_append] at this
      omega
    obtain ⟨mid',rest',hsplit,hpath,hcross,hbottom⟩ :=
      ih (by omega) hs.place (by have := hs.isTall; omega) hlen stop.2
    have hlow := crossed_below hs hsplit hcross
    have hdesc : descend sl.nodes test fuel (n+1) x rank=
        descend sl.nodes test fuel n stop.1 stop.2++[stop] := by rw [descend,hstop]
    have hbelow : ∀ i,i < n → (descend sl.nodes test fuel (n+1) x rank).getD i (header,0)=
        (descend sl.nodes test fuel n stop.1 stop.2).getD i (header,0) := by
      intro i hi
      rw [hdesc,getD_append _ _ _ _ (by rw [hpath.length]; exact hi)]
    have htop : (descend sl.nodes test fuel (n+1) x rank).getD n (header,0)=stop := by
      rw [hdesc,getD_append_right _ _ _ _ (by rw [hpath.length]),hpath.length,Nat.sub_self]
      rfl
    have htotal : stop.2+mid'.length=rank+(mid++mid').length := by
      rw [hs.rank,length_append]
      omega
    refine ⟨mid++mid',rest',?_,⟨?_,fun i hi => ?_⟩,fun z hz hzt => ?_,fun _ => ?_⟩
    · rw [hs.split,hsplit,append_assoc]
    · rw [hdesc,length_append,hpath.length,length_singleton]
    · by_cases hin : i < n
      · obtain ⟨low,hat,htall,hall,hrank⟩ := hpath.entry i hin
        rw [hbelow i hin]
        exact ⟨low,hat,htall,hall,by omega⟩
      · have heq : i=n := by omega
        rw [heq,htop]
        exact ⟨mid',hsplit ▸ hs.place,hs.isTall,hlow,htotal⟩
    · cases mem_append.mp hz with
      | inl hin => exact hs.crossed z hin hzt
      | inr hin =>
        have h := hlow z hin
        rw [tall,decide_eq_false_iff_not] at h
        exact absurd hzt h
    · cases n with
      | zero =>
        have hnil : mid'=[] := by
          by_contra hne
          obtain ⟨z,hz⟩ := exists_mem_of_ne_nil mid' hne
          have hzo := hs.place.mem (y := z) (by rw [hsplit]; exact mem_append_left _ hz)
          have hzl := hlow z hz
          rw [tall,decide_eq_false_iff_not] at hzl
          exact hzl (hl.heights z hzo).1
        rw [hnil,nil_append] at hsplit
        refine ⟨fun h => ?_,fun h => ?_,?_⟩
        · rw [htop]
          rw [hnil,append_nil] at h
          exact hs.stay h
        · rw [htop]
          rw [hnil,append_nil] at h
          exact hs.passed h
        · rw [← hsplit]
          exact hs.blocked
      | succ n =>
        have hb := hbottom (Nat.succ_pos n)
        refine ⟨fun h => ?_,fun h => ?_,hb.blocked⟩
        · rw [hbelow 0 (Nat.succ_pos n),hb.stay (append_eq_nil_iff.mp h).2]
          exact hs.stay (append_eq_nil_iff.mp h).1
        · rw [hbelow 0 (Nat.succ_pos n)]
          by_cases hmid' : mid'=[]
          · rw [hb.stay hmid']
            rw [hmid',append_nil] at h
            exact hs.passed h
          · exact hb.passed hmid'

theorem path_splits (hl : Linked sl order) (test : K → Bool) :
    ∃ front rest,order=front++rest ∧ PathTo sl.nodes order sl.level (sl.path test) front.length rest ∧
      Bottom sl.nodes test (sl.path test) header front rest := by
  obtain ⟨front,rest,hsplit,hpath,-,hbottom⟩ :=
    descend_path hl test le_rfl (At.start order)
      (by rw [hl.headerHeight]; exact hl.levelMax) (Nat.le_of_eq hl.length.symm) 0
  rw [Nat.zero_add] at hpath
  exact ⟨front,rest,hsplit,hpath,hbottom hl.levelPos⟩

end Search

end Mnemos.SkipList

/-! ## Insertion and removal in a skip list -/

namespace Mnemos.SkipList

open List

variable {K : Type}

/-- A loop body that changes level `i` only, by a function of that level of all nodes. -/
structure LevelStep (h : ℕ → ℕ) (f : (ℕ → SkipNode K) → ℕ → ℕ → SkipNode K)
    (effect : ℕ → (ℕ → SkipLevel) → ℕ → SkipLevel) (is : List ℕ) : Prop where
  height : ∀ nodes i x,height (f nodes i) x=height nodes x
  item : ∀ nodes i x,(f nodes i x).item=(nodes x).item
  backward : ∀ nodes i x,(f nodes i x).backward=(nodes x).backward
  other : ∀ nodes i x j,j≠i → levelAt (f nodes i) x j=levelAt nodes x j
  self : ∀ nodes,(∀ x,SkipList.height nodes x=h x) → ∀ i∈is,∀ x,
    levelAt (f nodes i) x i=effect i (fun y => levelAt nodes y i) x

section Loop

variable {h : ℕ → ℕ} {f : (ℕ → SkipNode K) → ℕ → ℕ → SkipNode K}
  {effect : ℕ → (ℕ → SkipLevel) → ℕ → SkipLevel} {is : List ℕ}

theorem LevelStep.frame (hs : LevelStep h f effect is) (js : List ℕ) (nodes : ℕ → SkipNode K)
    (x : ℕ) : SkipList.height (js.foldl f nodes) x=SkipList.height nodes x ∧
      (js.foldl f nodes x).item=(nodes x).item ∧
      (js.foldl f nodes x).backward=(nodes x).backward := by
  induction js generalizing nodes with
  | nil => exact ⟨rfl,rfl,rfl⟩
  | cons j js ih =>
    have hrest := ih (f nodes j)
    rw [hs.height,hs.item,hs.backward] at hrest
    exact hrest

theorem LevelStep.levels (hs : LevelStep h f effect is) {js : List ℕ} (hsub : ∀ j∈js,j∈is)
    (hn : js.Nodup) (nodes : ℕ → SkipNode K) (hh : ∀ x,SkipList.height nodes x=h x) (x i : ℕ) :
    levelAt (js.foldl f nodes) x i=
      if i∈js then effect i (fun y => levelAt nodes y i) x else levelAt nodes x i := by
  induction js generalizing nodes with
  | nil => rw [if_neg not_mem_nil]; rfl
  | cons j js ih =>
    have hrest := ih (fun k hk => hsub k (mem_cons_of_mem j hk)) (nodup_cons.mp hn).2
      (f nodes j) (fun y => (hs.height nodes j y).trans (hh y))
    have hj : j∉js := (nodup_cons.mp hn).1
    rw [foldl_cons,hrest]
    by_cases hij : i=j
    · rw [hij,if_neg hj,if_pos mem_cons_self,hs.self nodes hh j (hsub j mem_cons_self)]
    · have hsame : (fun y => levelAt (f nodes j) y i)=fun y => levelAt nodes y i :=
        funext fun y => hs.other nodes j y i hij
      rw [hsame,hs.other nodes j x i hij]
      simp only [mem_cons,hij,false_or]

end Loop

variable {path : List (ℕ×ℕ)} {is : List ℕ} {h : ℕ → ℕ}

theorem growStep (h : ℕ → ℕ) (length : ℕ) (his : ∀ i∈is,i < h header) :
    LevelStep (K := K) h (fun nodes i =>
      setLevel nodes header i { levelAt nodes header i with span := length })
      (fun _ level x => if x=header then { level header with span := length } else level x) is where
  height nodes i x := height_setLevel _ _ _ _ _
  item nodes i x := item_setLevel _ _ _ _ _
  backward nodes i x := backward_setLevel _ _ _ _ _
  other nodes i x j hj := by rw [levelAt_setLevel,if_neg (fun hc => hj hc.2.1)]
  self nodes hh i hi x := by
    rw [levelAt_setLevel,hh]
    by_cases hx : x=header
    · rw [if_pos ⟨hx,rfl,his i hi⟩,if_pos hx]
    · rw [if_neg (fun hc => hx hc.1),if_neg hx]

def linkEffect (id : ℕ) (path : List (ℕ×ℕ)) (i : ℕ) (level : ℕ → SkipLevel) (x : ℕ) : SkipLevel :=
  let stop := path.getD i (header,0)
  let distance := (path.getD 0 (header,0)).2-stop.2
  if x=stop.1 then ⟨some id,distance+1⟩
  else if x=id then ⟨(level stop.1).forward,(level stop.1).span-distance⟩ else level x

def widenEffect (path : List (ℕ×ℕ)) (i : ℕ) (level : ℕ → SkipLevel) (x : ℕ) : SkipLevel :=
  let stop := path.getD i (header,0)
  if x=stop.1 then { level stop.1 with span := (level stop.1).span+1 } else level x

def unlinkEffect (target : ℕ) (path : List (ℕ×ℕ)) (i : ℕ) (level : ℕ → SkipLevel) (x : ℕ) :
    SkipLevel :=
  let stop := path.getD i (header,0)
  if x=stop.1 then
    if (level stop.1).forward=some target then
      ⟨(level target).forward,(level stop.1).span+(level target).span-1⟩
    else { level stop.1 with span := (level stop.1).span-1 }
  else level x

theorem linkStep {id : ℕ} (hid : ∀ i∈is,i < h id)
    (hstop : ∀ i∈is,i < h (path.getD i (header,0)).1) :
    LevelStep (K := K) h (linkLevel id path) (linkEffect id path) is where
  height nodes i x := by
    unfold linkLevel
    dsimp only
    rw [height_setLevel,height_setLevel]
  item nodes i x := by
    unfold linkLevel
    rw [item_setLevel,item_setLevel]
  backward nodes i x := by
    unfold linkLevel
    rw [backward_setLevel,backward_setLevel]
  other nodes i x j hj := by
    unfold linkLevel
    dsimp only
    rw [levelAt_setLevel,if_neg (fun hc => hj hc.2.1),levelAt_setLevel,
      if_neg (fun hc => hj hc.2.1)]
  self nodes hh i hi x := by
    unfold linkLevel linkEffect
    dsimp only
    rw [levelAt_setLevel,levelAt_setLevel,height_setLevel,hh,hh]
    by_cases hx : x=(path.getD i (header,0)).1
    · rw [if_pos ⟨hx,rfl,hstop i hi⟩,if_pos hx]
    · rw [if_neg (fun hc => hx hc.1),if_neg hx]
      by_cases hxid : x=id
      · rw [if_pos ⟨hxid,rfl,hid i hi⟩,if_pos hxid]
      · rw [if_neg (fun hc => hxid hc.1),if_neg hxid]

theorem widenStep (hstop : ∀ i∈is,i < h (path.getD i (header,0)).1) :
    LevelStep (K := K) h (widenLevel path) (widenEffect path) is where
  height nodes i x := height_setLevel _ _ _ _ _
  item nodes i x := item_setLevel _ _ _ _ _
  backward nodes i x := backward_setLevel _ _ _ _ _
  other nodes i x j hj := by
    unfold widenLevel
    dsimp only
    rw [levelAt_setLevel,if_neg (fun hc => hj hc.2.1)]
  self nodes hh i hi x := by
    unfold widenLevel widenEffect
    dsimp only
    rw [levelAt_setLevel,hh]
    by_cases hx : x=(path.getD i (header,0)).1
    · rw [if_pos ⟨hx,rfl,hstop i hi⟩,if_pos hx]
    · rw [if_neg (fun hc => hx hc.1),if_neg hx]

theorem unlinkStep {target : ℕ} (hstop : ∀ i∈is,i < h (path.getD i (header,0)).1) :
    LevelStep (K := K) h (unlinkLevel target path) (unlinkEffect target path) is where
  height nodes i x := by
    unfold unlinkLevel
    dsimp only
    split <;> rw [height_setLevel]
  item nodes i x := by
    unfold unlinkLevel
    dsimp only
    split <;> rw [item_setLevel]
  backward nodes i x := by
    unfold unlinkLevel
    dsimp only
    split <;> rw [backward_setLevel]
  other nodes i x j hj := by
    unfold unlinkLevel
    dsimp only
    split <;> rw [levelAt_setLevel,if_neg (fun hc => hj hc.2.1)]
  self nodes hh i hi x := by
    unfold unlinkLevel unlinkEffect
    dsimp only
    by_cases hx : x=(path.getD i (header,0)).1
    · rw [if_pos hx]
      split <;> rw [levelAt_setLevel,hh,if_pos ⟨hx,rfl,hstop i hi⟩]
    · rw [if_neg hx]
      split <;> rw [levelAt_setLevel,if_neg (fun hc => hx hc.1)]

theorem hop_low {tall : ℕ → Bool} {post : List ℕ} (h : ∀ z∈post,tall z=false) :
    hop tall post=⟨none,post.length⟩ := by
  have hlow := hop_append_low h []
  rwa [append_nil] at hlow

theorem PathTo.congr {nodes nodes' : ℕ → SkipNode K} {order rest : List ℕ} {levels total : ℕ}
    {p : List (ℕ×ℕ)} (h : PathTo nodes order levels p total rest)
    (hh : ∀ x∈header::order,height nodes' x=height nodes x) :
    PathTo nodes' order levels p total rest where
  length := h.length
  entry i hi := by
    obtain ⟨mid,hat,htall,hlow,hrank⟩ := h.entry i hi
    refine ⟨mid,hat,by rw [hh _ hat.self]; exact htall,fun z hz => ?_,hrank⟩
    have hmem := mem_cons_of_mem header (hat.mem (mem_append_left rest hz))
    rw [tall,hh z hmem]
    exact hlow z hz

theorem last_tall_unique {nodes : ℕ → SkipNode K} {order rest low mid : List ℕ} {i x u : ℕ}
    (hx : At order x (low++rest)) (hxt : i < height nodes x) (hlow : ∀ z∈low,tall nodes i z=false)
    (hu : At order u (mid++rest)) (hut : i < height nodes u) (hmid : ∀ z∈mid,tall nodes i z=false) :
    x=u ∧ low=mid := by
  have hcontra : ∀ {y : ℕ} {zs : List ℕ},i < height nodes y → y∈zs →
      (∀ z∈zs,tall nodes i z=false) → False := by
    intro y zs hy hin hall
    have := hall y hin
    rw [tall,decide_eq_false_iff_not] at this
    exact this hy
  rcases hx.compare hu with ⟨rfl,heq⟩ | ⟨m,heq⟩ | ⟨m,heq⟩
  · exact ⟨rfl,append_cancel_right heq⟩
  · rw [← cons_append,← append_assoc] at heq
    have hlow' := append_cancel_right heq
    exact (hcontra hut (by rw [hlow']; simp) hlow).elim
  · rw [← cons_append,← append_assoc] at heq
    have hmid' := append_cancel_right heq
    exact (hcontra hxt (by rw [hmid']; simp) hmid).elim

section Grow

variable {sl : SkipList K} {order : List ℕ}

variable {newLevel : ℕ}

theorem Linked.newLevels (hl : Linked sl order) (hmax : newLevel ≤ maxLevel) :
    ∀ i∈List.range' sl.level (newLevel-sl.level),i < height sl.nodes header := by
  intro i hi
  rw [mem_range'_1] at hi
  rw [hl.headerHeight]
  omega

theorem grow_frame (hl : Linked sl order) (hmax : newLevel ≤ maxLevel) (x : ℕ) :
    height (sl.grow newLevel).nodes x=height sl.nodes x ∧
      ((sl.grow newLevel).nodes x).item=(sl.nodes x).item ∧
      ((sl.grow newLevel).nodes x).backward=(sl.nodes x).backward :=
  (growStep (K := K) (height sl.nodes) sl.length (hl.newLevels hmax)).frame _ _ x

theorem grow_levels (hl : Linked sl order) (hmax : newLevel ≤ maxLevel) (x i : ℕ) :
    levelAt (sl.grow newLevel).nodes x i=
      if x=header ∧ sl.level ≤ i ∧ i < newLevel then ⟨none,sl.length⟩
      else levelAt sl.nodes x i := by
  have hlev := (growStep (K := K) (height sl.nodes) sl.length (hl.newLevels hmax)).levels
    (fun j hj => hj) nodup_range' sl.nodes (fun _ => rfl) x i
  rw [grow,hlev]
  simp only [mem_range'_1]
  by_cases hx : x=header
  · by_cases hi : sl.level ≤ i ∧ i < newLevel
    · rw [if_pos (by omega),if_pos hx,if_pos ⟨hx,hi⟩,hl.unused i hi.1]
    · rw [if_neg (by omega),if_neg (fun hc => hi hc.2)]
  · simp only [if_neg hx,ite_self]
    rw [if_neg (fun hc => hx hc.1)]

theorem grow_linked (hl : Linked sl order) (hmax : newLevel ≤ maxLevel) :
    Linked (sl.grow newLevel) order where
  nodup := hl.nodup
  allocated := hl.allocated
  headerHeight := (grow_frame hl hmax header).1.trans hl.headerHeight
  heights x hx := by
    rw [(grow_frame hl hmax x).1]
    have h := hl.heights x hx
    exact ⟨h.1,le_trans h.2 (Nat.le_max_left _ _)⟩
  levelPos := lt_of_lt_of_le hl.levelPos (Nat.le_max_left _ _)
  levelMax := Nat.max_le.mpr ⟨hl.levelMax,hmax⟩
  links x post hat i hi hheight := by
    have htall : tall (sl.grow newLevel).nodes i=tall sl.nodes i :=
      funext fun z => by rw [tall,tall,(grow_frame hl hmax z).1]
    rw [(grow_frame hl hmax x).1] at hheight
    rw [grow_levels hl hmax,htall]
    by_cases hlow : i < sl.level
    · rw [if_neg (fun hc => absurd hc.2.1 (not_le.mpr hlow)),hl.links x post hat i hlow hheight]
    · have hx : x=header := by
        rcases mem_cons.mp hat.self with h | h
        · exact h
        · have := (hl.heights x h).2
          omega
      have hi' : i < max sl.level newLevel := hi
      rw [if_pos ⟨hx,by omega,by omega⟩]
      subst hx
      have hpost := hat.unique hl.nodup (At.start order)
      rw [hop_low,hpost,hl.length]
      intro z hz
      have := (hl.heights z (hat.mem hz)).2
      rw [tall,decide_eq_false_iff_not]
      omega
  unused i hi := by
    have hi' : max sl.level newLevel ≤ i := hi
    rw [grow_levels hl hmax,if_neg (by omega)]
    exact hl.unused i (by omega)
  length := hl.length
  tail := hl.tail
  backward pre x post h := (grow_frame hl hmax x).2.2.trans (hl.backward pre x post h)

theorem grow_path (hl : Linked sl order) (hmax : newLevel ≤ maxLevel) {p : List (ℕ×ℕ)}
    {front rest : List ℕ} (hsplit : order=front++rest)
    (hp : PathTo sl.nodes order sl.level p front.length rest) :
    PathTo (sl.grow newLevel).nodes order (sl.grow newLevel).level
      (p++replicate (newLevel-sl.level) (header,0)) front.length rest := by
  have hp' := hp.congr fun x _ => (grow_frame hl hmax x).1
  constructor
  · rw [length_append,hp.length,length_replicate,grow]
    dsimp only
    omega
  · intro i hi
    have hi' : i < max sl.level newLevel := hi
    by_cases hlow : i < sl.level
    · rw [getD_append _ _ _ _ (by rw [hp.length]; exact hlow)]
      exact hp'.entry i hlow
    · have hentry : (p++replicate (newLevel-sl.level) (header,0)).getD i (header,0)=
          (header,0) := by
        rw [getD_append_right _ _ _ _ (by rw [hp.length]; omega),getD_replicate]
        rw [hp.length]
        omega
      rw [hentry]
      refine ⟨front,hsplit ▸ At.start order,?_,fun z hz => ?_,Nat.zero_add _⟩
      · rw [(grow_frame hl hmax header).1,hl.headerHeight]
        omega
      · have := (hl.heights z (by rw [hsplit]; exact mem_append_left _ hz)).2
        rw [tall,(grow_frame hl hmax z).1,decide_eq_false_iff_not]
        omega

end Grow

theorem At.insert_cases {front rest post : List ℕ} {id x : ℕ} (h : At (front++id::rest) x post) :
    (x=id ∧ post=rest) ∨ (∃ low,post=low++id::rest ∧ At (front++rest) x (low++rest)) ∨
      ∃ pre,rest=pre++x::post := by
  obtain ⟨pre,hpre⟩ := h
  rw [← cons_append,append_eq_append_iff] at hpre
  rcases hpre with ⟨m,hm,hpost⟩ | ⟨m,hm,hpost⟩
  · cases m with
    | nil =>
      rw [nil_append,List.cons.injEq] at hpost
      exact .inl ⟨hpost.1.symm,hpost.2.symm⟩
    | cons y m =>
      rw [cons_append,List.cons.injEq] at hpost
      exact .inr (.inr ⟨m,hpost.2⟩)
  · cases m with
    | nil =>
      rw [nil_append,List.cons.injEq] at hpost
      exact .inl ⟨hpost.1,hpost.2⟩
    | cons y m =>
      rw [cons_append,List.cons.injEq] at hpost
      refine .inr (.inl ⟨m,hpost.2,pre,?_⟩)
      rw [← cons_append,hm,hpost.1,append_assoc,cons_append]

section Insert

open Function

variable {sl : SkipList K} {order front rest : List ℕ} {path : List (ℕ×ℕ)} {newLevel : ℕ}

def linkedNodes (sl : SkipList K) (path : List (ℕ×ℕ)) (item : K) (newLevel : ℕ) :
    ℕ → SkipNode K :=
  (List.range' newLevel (sl.level-newLevel)).foldl (widenLevel path)
    ((List.range newLevel).foldl (linkLevel sl.next path)
      (update sl.nodes sl.next ⟨item,none,replicate newLevel ⟨none,0⟩⟩))

/-- What the insertion loops need: a linked list, a path through all its levels and a node of
permitted height. -/
structure Ready (sl : SkipList K) (order front rest : List ℕ) (path : List (ℕ×ℕ))
    (newLevel : ℕ) : Prop where
  linked : Linked sl order
  split : order=front++rest
  path : PathTo sl.nodes order sl.level path front.length rest
  levelPos : 0 < newLevel
  levelMax : newLevel ≤ sl.level

def newHeight (sl : SkipList K) (newLevel x : ℕ) : ℕ :=
  if x=sl.next then newLevel else height sl.nodes x

theorem Linked.fresh (hl : Linked sl order) {x : ℕ} (hx : x∈header::order) : x≠sl.next :=
  Nat.ne_of_lt (hl.allocated x hx)

theorem height_allocate (sl : SkipList K) (item : K) (newLevel x : ℕ) :
    height (update sl.nodes sl.next ⟨item,none,replicate newLevel ⟨none,0⟩⟩) x=
      newHeight sl newLevel x := by
  unfold height newHeight
  by_cases hx : x=sl.next
  · rw [hx,update_self,if_pos rfl,length_replicate]
  · rw [update_of_ne hx,if_neg hx]
    rfl

theorem levelAt_allocate (sl : SkipList K) (item : K) (newLevel x i : ℕ) :
    levelAt (update sl.nodes sl.next ⟨item,none,replicate newLevel ⟨none,0⟩⟩) x i=
      if x=sl.next then ⟨none,0⟩ else levelAt sl.nodes x i := by
  unfold levelAt
  by_cases hx : x=sl.next
  · rw [hx,update_self,if_pos rfl,getD_eq_getElem?_getD,getElem?_replicate]
    split <;> rfl
  · rw [update_of_ne hx,if_neg hx]

theorem Ready.stop (hr : Ready sl order front rest path newLevel) {i : ℕ} (hi : i < sl.level) :
    i < newHeight sl newLevel (path.getD i (header,0)).1 := by
  obtain ⟨mid,hat,htall,-,-⟩ := hr.path.entry i hi
  rw [newHeight,if_neg (hr.linked.fresh hat.self)]
  exact htall

theorem Ready.link (hr : Ready sl order front rest path newLevel) :
    LevelStep (K := K) (newHeight sl newLevel) (linkLevel sl.next path)
      (linkEffect sl.next path) (List.range newLevel) :=
  linkStep (fun i hi => by
    rw [newHeight,if_pos rfl]
    exact mem_range.mp hi) (fun i hi => hr.stop (by
      have := mem_range.mp hi
      have := hr.levelMax
      omega))

theorem Ready.widen (hr : Ready sl order front rest path newLevel) :
    LevelStep (K := K) (newHeight sl newLevel) (widenLevel path) (widenEffect path)
      (List.range' newLevel (sl.level-newLevel)) :=
  widenStep fun i hi => hr.stop (by
    rw [mem_range'_1] at hi
    omega)

theorem Ready.frame (hr : Ready sl order front rest path newLevel) (item : K) (x : ℕ) :
    height (linkedNodes sl path item newLevel) x=newHeight sl newLevel x ∧
      (linkedNodes sl path item newLevel x).item=(if x=sl.next then item else (sl.nodes x).item) ∧
      (linkedNodes sl path item newLevel x).backward=
        (if x=sl.next then none else (sl.nodes x).backward) := by
  have hw := hr.widen.frame (List.range' newLevel (sl.level-newLevel))
    ((List.range newLevel).foldl (linkLevel sl.next path)
      (update sl.nodes sl.next ⟨item,none,replicate newLevel ⟨none,0⟩⟩)) x
  have hk := hr.link.frame (List.range newLevel)
    (update sl.nodes sl.next ⟨item,none,replicate newLevel ⟨none,0⟩⟩) x
  rw [linkedNodes,hw.1,hw.2.1,hw.2.2,hk.1,hk.2.1,hk.2.2,height_allocate]
  by_cases hx : x=sl.next
  · rw [hx,update_self,if_pos rfl,if_pos rfl]
    exact ⟨rfl,rfl,rfl⟩
  · rw [update_of_ne hx,if_neg hx,if_neg hx]
    exact ⟨rfl,rfl,rfl⟩

theorem Ready.levels (hr : Ready sl order front rest path newLevel) (item : K) (x i : ℕ) :
    let allocated y := if y=sl.next then ⟨none,0⟩ else levelAt sl.nodes y i
    levelAt (linkedNodes sl path item newLevel) x i=
      if i < newLevel then linkEffect sl.next path i allocated x
      else if i < sl.level then widenEffect path i allocated x else allocated x := by
  have hk := hr.link.levels (fun j hj => hj) nodup_range
    (update sl.nodes sl.next ⟨item,none,replicate newLevel ⟨none,0⟩⟩)
    (height_allocate sl item newLevel)
  have hw := hr.widen.levels (fun j hj => hj) nodup_range'
    ((List.range newLevel).foldl (linkLevel sl.next path)
      (update sl.nodes sl.next ⟨item,none,replicate newLevel ⟨none,0⟩⟩))
    (fun y => (hr.link.frame _ _ y).1.trans (height_allocate sl item newLevel y)) x i
  rw [linkedNodes,hw]
  simp only [hk,mem_range'_1,mem_range,levelAt_allocate]
  by_cases hi : i < newLevel
  · simp only [if_pos hi]
    rw [if_neg (by omega)]
  · simp only [if_neg hi]
    by_cases hlev : i < sl.level
    · rw [if_pos (by omega),if_pos hlev]
    · rw [if_neg (by omega),if_neg hlev]

theorem Ready.levels_old (hr : Ready sl order front rest path newLevel) (item : K) {x i : ℕ}
    (hx : x≠sl.next) :
    levelAt (linkedNodes sl path item newLevel) x i=
      if i < sl.level ∧ x=(path.getD i (header,0)).1 then
        if i < newLevel then
          ⟨some sl.next,(path.getD 0 (header,0)).2-(path.getD i (header,0)).2+1⟩
        else { levelAt sl.nodes x i with span := (levelAt sl.nodes x i).span+1 }
      else levelAt sl.nodes x i := by
  have hmax := hr.levelMax
  rw [hr.levels]
  unfold linkEffect widenEffect
  simp only [if_neg hx]
  by_cases hstop : x=(path.getD i (header,0)).1
  · simp only [← hstop,if_true,if_neg hx,and_true]
    split
    · rw [if_pos (by omega)]
    · rfl
  · simp only [hstop,if_false,and_false,ite_self]

theorem Ready.levels_new (hr : Ready sl order front rest path newLevel) (item : K) {i : ℕ}
    (hi : i < newLevel) :
    levelAt (linkedNodes sl path item newLevel) sl.next i=
      ⟨(levelAt sl.nodes (path.getD i (header,0)).1 i).forward,
        (levelAt sl.nodes (path.getD i (header,0)).1 i).span-
          ((path.getD 0 (header,0)).2-(path.getD i (header,0)).2)⟩ := by
  have hmax := hr.levelMax
  obtain ⟨mid,hat,-,-,-⟩ := hr.path.entry i (by omega)
  have hne := hr.linked.fresh hat.self
  rw [hr.levels,if_pos hi,linkEffect]
  rw [if_neg hne.symm,if_pos rfl,if_neg hne]

theorem PathTo.bottom (hl : Linked sl order)
    (hp : PathTo sl.nodes order sl.level path front.length rest) :
    At order (path.getD 0 (header,0)).1 rest ∧ (path.getD 0 (header,0)).2=front.length := by
  obtain ⟨mid,hat,-,hlow,hrank⟩ := hp.entry 0 hl.levelPos
  have hnil : mid=[] := by
    by_contra hne
    obtain ⟨z,hz⟩ := exists_mem_of_ne_nil mid hne
    have h := hlow z hz
    rw [tall,decide_eq_false_iff_not] at h
    exact h (hl.heights z (hat.mem (mem_append_left rest hz))).1
  rw [hnil] at hat hrank
  exact ⟨hat,hrank⟩

theorem Ready.tall_old (hr : Ready sl order front rest path newLevel) (item : K) {z : ℕ} (i : ℕ)
    (hz : z∈order) : tall (linkedNodes sl path item newLevel) i z=tall sl.nodes i z := by
  rw [tall,tall,(hr.frame item z).1,newHeight,
    if_neg (hr.linked.fresh (mem_cons_of_mem header hz))]

theorem Ready.links (hr : Ready sl order front rest path newLevel) (item : K) {x i : ℕ}
    {post : List ℕ} (hx : At (front++sl.next::rest) x post) (hi : i < sl.level)
    (hheight : i < newHeight sl newLevel x) :
    levelAt (linkedNodes sl path item newLevel) x i=
      hop (tall (linkedNodes sl path item newLevel) i) post := by
  have hl := hr.linked
  have hR := (hr.path.bottom hl).2
  obtain ⟨mid,hat,htall,hmid,hrank⟩ := hr.path.entry i hi
  have hstop := hl.links _ _ hat i hi htall
  rw [hop_append_low hmid] at hstop
  have hdist : (path.getD 0 (header,0)).2-(path.getD i (header,0)).2=mid.length := by omega
  have hrest : ∀ z∈rest,tall (linkedNodes sl path item newLevel) i z=tall sl.nodes i z :=
    fun z hz => hr.tall_old item i (by rw [hr.split]; exact mem_append_right _ hz)
  have hid : tall (linkedNodes sl path item newLevel) i sl.next=decide (i < newLevel) := by
    rw [tall,(hr.frame item sl.next).1,newHeight,if_pos rfl]
  rcases hx.insert_cases with ⟨rfl,rfl⟩ | ⟨low,rfl,hlowat⟩ | ⟨pre,hpre⟩
  · -- The new node takes over what the link before it led to.
    rw [newHeight,if_pos rfl] at hheight
    rw [hr.levels_new item hheight,hstop,hdist,Nat.add_sub_cancel_left,hop_congr hrest]
    rfl
  · rw [← hr.split] at hlowat
    have hne := hl.fresh hlowat.self
    have hxt : i < height sl.nodes x := by rwa [newHeight,if_neg hne] at hheight
    have hlowt : ∀ z∈low,tall (linkedNodes sl path item newLevel) i z=tall sl.nodes i z :=
      fun z hz => hr.tall_old item i (hlowat.mem (mem_append_left rest hz))
    rw [hr.levels_old item hne]
    by_cases hall : ∀ z∈low,tall sl.nodes i z=false
    · obtain ⟨rfl,rfl⟩ := last_tall_unique hlowat hxt hall hat htall hmid
      rw [if_pos ⟨hi,rfl⟩,hop_append_low (fun z hz => (hlowt z hz).trans (hall z hz)),hdist,hstop,
        find?_cons,gap,hid]
      have hgap := congrArg SkipLevel.span (hop_congr hrest)
      have hfind := congrArg SkipLevel.forward (hop_congr hrest)
      dsimp only [hop] at hgap hfind
      by_cases hnew : i < newLevel
      · rw [if_pos hnew,decide_eq_true hnew]
        rfl
      · rw [if_neg hnew,decide_eq_false hnew]
        simp only [Bool.false_eq_true,if_false,hgap,hfind]
        rfl
    · -- A tall node in between: neither the link nor its span reaches the new node.
      have hex : ∃ z∈low,tall sl.nodes i z=true := by simpa using hall
      have hex' : ∃ z∈low,tall (linkedNodes sl path item newLevel) i z=true := by
        obtain ⟨z,hz,ht⟩ := hex
        exact ⟨z,hz,(hlowt z hz).trans ht⟩
      rw [if_neg,hl.links x _ hlowat i hi hxt,hop_append_high hex,hop_append_high hex',
        hop_congr hlowt]
      rintro ⟨-,rfl⟩
      have heq := append_cancel_right (hlowat.unique hl.nodup hat)
      obtain ⟨z,hz,ht⟩ := hex
      rw [hmid z (heq ▸ hz)] at ht
      cases ht
  · have hxat : At order x post := ⟨header::front++pre,by rw [hr.split,hpre]; simp⟩
    have hne := hl.fresh hxat.self
    have hxt : i < height sl.nodes x := by rwa [newHeight,if_neg hne] at hheight
    have hpost : ∀ z∈post,tall (linkedNodes sl path item newLevel) i z=tall sl.nodes i z :=
      fun z hz => hr.tall_old item i (hxat.mem hz)
    rw [hr.levels_old item hne,if_neg,hl.links x post hxat i hi hxt,hop_congr hpost]
    rintro ⟨-,rfl⟩
    have heq := hxat.unique hl.nodup hat
    have hlen := congrArg List.length (heq.trans (by rw [hpre]))
    simp only [length_append,length_cons] at hlen
    omega

theorem At.before {order front rest : List ℕ} {b : ℕ} (hn : (header::order).Nodup)
    (hsplit : order=front++rest) (h : At order b rest) :
    (if b=header then none else some b)=front.getLast? := by
  obtain ⟨pre,hpre⟩ := h
  rw [hsplit,← cons_append,← singleton_append (l := rest),← append_assoc] at hpre
  have hfront := append_cancel_right hpre
  cases front using List.reverseRecOn with
  | nil =>
    have hb := congrArg List.getLast? hfront
    rw [getLast?_concat] at hb
    have hheader : b=header := (Option.some.inj hb).symm
    rw [if_pos hheader]
    rfl
  | append_singleton front y =>
    have hb := congrArg List.getLast? hfront
    rw [getLast?_concat,← cons_append,getLast?_concat,Option.some.injEq] at hb
    have hy : b≠header := by
      rintro rfl
      rw [hsplit,hb] at hn
      exact (nodup_cons.mp hn).1 (by simp)
    rw [if_neg hy,getLast?_concat,hb]

theorem backward_insert {order front rest : List ℕ} {id : ℕ} {old : ℕ → Option ℕ}
    (hsplit : order=front++rest) (hn : (front++id::rest).Nodup)
    (hold : ∀ pre x post,order=pre++x::post → old x=pre.getLast?) {pre post : List ℕ} {x : ℕ}
    (h : front++id::rest=pre++x::post) :
    (if rest.head?=some x then some id else if x=id then front.getLast? else old x)=
      pre.getLast? := by
  have hhead : ∀ {y : ℕ},y∉rest → ¬ rest.head?=some y :=
    fun hy hh => hy (mem_of_mem_head? hh)
  rw [append_eq_append_iff] at h
  rw [nodup_append,nodup_cons] at hn
  rcases h with ⟨m,hm,hpost⟩ | ⟨m,hm,hpost⟩
  · cases m with
    | nil =>
      rw [nil_append,List.cons.injEq] at hpost
      rw [append_nil] at hm
      rw [← hpost.1,hm,if_neg (hhead hn.2.1.1),if_pos rfl]
    | cons y m =>
      rw [cons_append,List.cons.injEq] at hpost
      obtain ⟨rfl,hrest⟩ := hpost
      have hxr : x∈rest := by rw [hrest]; simp
      have hxid : x≠id := fun hx => hn.2.1.1 (hx ▸ hxr)
      rw [hm]
      cases m with
      | nil =>
        rw [hrest,nil_append,head?_cons,if_pos rfl,getLast?_concat]
      | cons z m =>
        have hzx : z≠x := by
          have hnr := hn.2.1.2
          rw [hrest,cons_append,nodup_cons] at hnr
          rintro rfl
          exact hnr.1 (by simp)
        rw [hrest,cons_append,head?_cons,if_neg (fun hh => hzx (Option.some.inj hh)),
          if_neg hxid,hold (front++z::m) x post (by rw [hsplit,hrest]; simp)]
        rw [getLast?_append_of_ne_nil _ (cons_ne_nil z m),
          getLast?_append_of_ne_nil _ (cons_ne_nil id (z::m)),getLast?_cons_cons]
  · cases m with
    | nil =>
      rw [nil_append,List.cons.injEq] at hpost
      rw [append_nil] at hm
      rw [hpost.1,← hm,if_neg (hhead hn.2.1.1),if_pos rfl]
    | cons y m =>
      rw [cons_append,List.cons.injEq] at hpost
      obtain ⟨rfl,hpost⟩ := hpost
      have hxf : x∈front := by rw [hm]; simp
      have hxr : x∉rest := fun hx => hn.2.2 x hxf x (mem_cons_of_mem id hx) rfl
      have hxid : x≠id := hn.2.2 x hxf id mem_cons_self
      rw [if_neg (hhead hxr),if_neg hxid,
        hold pre x (m++rest) (by rw [hsplit,hm]; simp)]

theorem Ready.nodup (hr : Ready sl order front rest path newLevel) :
    (header::(front++sl.next::rest)).Nodup := by
  have hn := hr.linked.nodup
  rw [hr.split] at hn
  have hfresh : sl.next∉header::(front++rest) := by
    intro hin
    rw [← hr.split] at hin
    exact absurd rfl (hr.linked.fresh hin)
  have hperm : (header::(front++sl.next::rest)).Perm (sl.next::header::(front++rest)) :=
    (Perm.cons header perm_middle).trans (Perm.swap _ _ _)
  exact hperm.nodup_iff.mpr (nodup_cons.mpr ⟨hfresh,hn⟩)

/-- The list fields after an insertion, for nodes that differ from those of the loops in their
predecessors only. -/
theorem Ready.finish (hr : Ready sl order front rest path newLevel) (item : K)
    {nodes : ℕ → SkipNode K} {tail : Option ℕ}
    (hheight : ∀ x,height nodes x=height (linkedNodes sl path item newLevel) x)
    (hlevels : ∀ x i,levelAt nodes x i=levelAt (linkedNodes sl path item newLevel) x i)
    (hback : ∀ pre x post,front++sl.next::rest=pre++x::post → (nodes x).backward=pre.getLast?)
    (htail : tail=(front++sl.next::rest).getLast?) :
    Linked { sl with nodes := nodes, next := sl.next+1, tail := tail, length := sl.length+1 }
      (front++sl.next::rest) where
  nodup := hr.nodup
  allocated x hx := by
    rcases mem_cons.mp hx with h | h
    · have := hr.linked.allocated header mem_cons_self
      rw [h]
      exact Nat.lt_succ_of_lt this
    · rcases mem_append.mp h with h | h
      · exact Nat.lt_succ_of_lt (hr.linked.allocated x (by rw [hr.split]; simp [h]))
      · rcases mem_cons.mp h with h | h
        · rw [h]
          exact Nat.lt_succ_self _
        · exact Nat.lt_succ_of_lt (hr.linked.allocated x (by rw [hr.split]; simp [h]))
  headerHeight := by
    rw [hheight,(hr.frame item header).1,newHeight,if_neg (hr.linked.fresh mem_cons_self)]
    exact hr.linked.headerHeight
  heights x hx := by
    rw [hheight,(hr.frame item x).1,newHeight]
    by_cases hid : x=sl.next
    · rw [if_pos hid]
      exact ⟨hr.levelPos,hr.levelMax⟩
    · rw [if_neg hid]
      refine hr.linked.heights x ?_
      rw [hr.split]
      simpa [hid] using hx
  levelPos := hr.linked.levelPos
  levelMax := hr.linked.levelMax
  links x post hat i hi hx := by
    have htall : tall nodes i=tall (linkedNodes sl path item newLevel) i :=
      funext fun z => by rw [tall,tall,hheight]
    rw [hlevels,htall]
    refine hr.links item hat hi ?_
    rw [← (hr.frame item x).1,← hheight]
    exact hx
  unused i hi := by
    rw [hlevels,hr.levels_old item (hr.linked.fresh mem_cons_self),
      if_neg (fun hc => absurd hc.1 (not_lt.mpr hi))]
    exact hr.linked.unused i hi
  length := by
    rw [hr.linked.length,hr.split]
    simp only [length_append,length_cons]
    omega
  tail := htail
  backward := hback

theorem Linked.first (hl : Linked sl order) {post : List ℕ} (hpost : ∀ z∈post,z∈order) :
    post.find? (tall sl.nodes 0)=post.head? := by
  cases post with
  | nil => rfl
  | cons y ys =>
    have hy : tall sl.nodes 0 y=true := by
      rw [tall,decide_eq_true_iff]
      exact (hl.heights y (hpost y mem_cons_self)).1
    rw [find?_cons,hy]
    rfl

theorem search_linked (hl : Linked sl order) (test : K → Bool) :
    ∃ front rest,order=front++rest ∧
      PathTo sl.nodes order sl.level (sl.path test) front.length rest ∧
      At order ((sl.path test).getD 0 (header,0)).1 rest ∧
      (levelAt sl.nodes ((sl.path test).getD 0 (header,0)).1 0).forward=rest.head? ∧
      (∀ x,front.getLast?=some x → test (sl.nodes x).item=true) ∧
      ∀ x,rest.head?=some x → test (sl.nodes x).item=false := by
  obtain ⟨front,rest,hsplit,hp,hbottom⟩ := path_splits hl test
  have hend := (hp.bottom hl).1
  have hbelong : ∀ z∈rest,z∈order := fun z hz => hend.mem hz
  obtain ⟨-,-,hheight,-⟩ := hp.entry 0 hl.levelPos
  refine ⟨front,rest,hsplit,hp,hend,?_,fun x hx => ?_,fun x hx => ?_⟩
  · rw [hl.links _ _ hend 0 hl.levelPos hheight]
    exact hl.first hbelong
  · have hne : front≠[] := by
      rintro rfl
      cases hx
    have hb := hend.before hl.nodup hsplit
    rw [hx] at hb
    split at hb
    · cases hb
    · rw [← Option.some.inj hb]
      exact hbottom.passed hne
  · exact hbottom.blocked x ((hl.first hbelong).trans hx)

/-- Insertion behind the search path of a test: the new node stands behind the last node the
path passed and in front of the first one that fails the test. -/
theorem insert_linked (hl : Linked sl order) (test : K → Bool) (item : K) (hpos : 0 < newLevel)
    (hmax : newLevel ≤ maxLevel) :
    ∃ front rest,order=front++rest ∧
      Linked (sl.insert test item newLevel) (front++sl.next::rest) ∧
      ((sl.insert test item newLevel).nodes sl.next).item=item ∧
      (∀ x∈order,((sl.insert test item newLevel).nodes x).item=(sl.nodes x).item) ∧
      (∀ x,height (sl.insert test item newLevel).nodes x=newHeight sl newLevel x) ∧
      (∀ x,front.getLast?=some x → test (sl.nodes x).item=true) ∧
      (∀ x,rest.head?=some x → test (sl.nodes x).item=false) := by
  obtain ⟨front,rest,hsplit,hpath,-,-,hlast,hhead⟩ := search_linked hl test
  have hg := grow_linked hl hmax
  have hr : Ready (sl.grow newLevel) order front rest
      (sl.path test++replicate (newLevel-sl.level) (header,0)) newLevel :=
    ⟨hg,hsplit,grow_path hl hmax hsplit hpath,hpos,Nat.le_max_right _ _⟩
  set path := sl.path test++replicate (newLevel-sl.level) (header,0) with hpathdef
  have hend := hr.path.bottom hg
  have hbefore := hend.1.before hg.nodup hsplit
  have hfirst : rest.find? (tall sl.nodes 0)=rest.head? :=
    hl.first fun z hz => by rw [hsplit]; exact mem_append_right _ hz
  refine ⟨front,rest,hsplit,?_⟩
  set nodes := setBackward (linkedNodes (sl.grow newLevel) path item newLevel) sl.next
    (if (path.getD 0 (header,0)).1=header then none else some (path.getD 0 (header,0)).1)
    with hnodes
  have hnext : (levelAt nodes sl.next 0).forward=rest.head? := by
    have hplace : At (front++(sl.grow newLevel).next::rest) sl.next rest := ⟨header::front,rfl⟩
    have hlink := hr.links item hplace hg.levelPos (by
        rw [newHeight,if_pos (show sl.next=(sl.grow newLevel).next from rfl)]
        exact hpos)
    rw [hnodes,levelAt_setBackward,hlink,← hfirst]
    have hsame : ∀ z∈rest,tall (linkedNodes (sl.grow newLevel) path item newLevel) 0 z=
        tall sl.nodes 0 z := by
      intro z hz
      rw [hr.tall_old item 0 (by rw [hsplit]; exact mem_append_right _ hz),tall,tall,
        (grow_frame hl hmax z).1]
    exact congrArg SkipLevel.forward (hop_congr hsame)
  have hitem : ∀ x∈order,(nodes x).item=(sl.nodes x).item := by
    intro x hx
    rw [hnodes,item_setBackward,(hr.frame item x).2.1,
      if_neg (hg.fresh (mem_cons_of_mem header hx)),(grow_frame hl hmax x).2.1]
  have hnew : (nodes sl.next).item=item := by
    rw [hnodes,item_setBackward,(hr.frame item sl.next).2.1]
    exact if_pos rfl
  have hheight : ∀ x,height nodes x=newHeight sl newLevel x := by
    intro x
    rw [hnodes,height_setBackward,(hr.frame item x).1,newHeight,newHeight,
      (grow_frame hl hmax x).1]
    rfl
  have hold : ∀ x,(nodes x).backward=
      if x=sl.next then front.getLast? else ((sl.grow newLevel).nodes x).backward := by
    intro x
    rw [hnodes,backward_setBackward,(hr.frame item x).2.2,hbefore]
    by_cases hx : x=sl.next
    · rw [if_pos hx,if_pos hx]
    · rw [if_neg hx,if_neg hx]
      exact if_neg hx
  have hstate : sl.insert test item newLevel=(sl.grow newLevel).finishInsert sl.next nodes := rfl
  rw [finishInsert,hnext] at hstate
  have hnodup : (front++sl.next::rest).Nodup := (nodup_cons.mp hr.nodup).2
  cases hrest : rest with
  | nil =>
    rw [hrest] at hstate hr hnodup hsplit
    rw [head?_nil] at hstate
    dsimp only at hstate
    rw [hstate]
    refine ⟨hr.finish item (fun x => by rw [hnodes,height_setBackward])
      (fun x i => by rw [hnodes,levelAt_setBackward]) (fun pre x post h => ?_)
      (by rw [getLast?_concat]; rfl),hnew,hitem,hheight,hlast,fun x hx => by cases hx⟩
    have hb := backward_insert hsplit hnodup hg.backward h
    rw [head?_nil,if_neg (by simp)] at hb
    rw [hold]
    exact hb
  | cons y ys =>
    rw [hrest] at hstate hr hnodup hsplit
    rw [head?_cons] at hstate
    dsimp only at hstate
    rw [hstate]
    refine ⟨hr.finish item (fun x => by rw [height_setBackward,hnodes,height_setBackward])
      (fun x i => by rw [levelAt_setBackward,hnodes,levelAt_setBackward])
      (fun pre x post h => ?_) ?_,?_,fun x hx => ?_,fun x => ?_,hlast,fun x hx => ?_⟩
    · have hb := backward_insert hsplit hnodup hg.backward h
      rw [head?_cons] at hb
      rw [backward_setBackward,hold,← hb]
      by_cases hx : x=y
      · rw [if_pos hx,if_pos (by rw [hx])]
      · rw [if_neg hx,if_neg (fun hc => hx (Option.some.inj hc).symm)]
    · have ht := hg.tail
      rw [hsplit,getLast?_append_of_ne_nil _ (cons_ne_nil y ys)] at ht
      rw [ht,getLast?_append_of_ne_nil _ (cons_ne_nil _ (y::ys)),getLast?_cons_cons]
    · rw [item_setBackward]
      exact hnew
    · rw [item_setBackward]
      exact hitem x hx
    · rw [height_setBackward]
      exact hheight x
    · exact hhead x (by rw [hrest]; exact hx)

end Insert

end Mnemos.SkipList
