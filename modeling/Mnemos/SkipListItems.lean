import Mnemos.SkipList

/-!
# Removal from a skip list

Removing the node behind the search path leaves the links of the order without
it: a link that led to the node takes over its link, every link that crossed it
spans one position less, and levels without nodes are given up.
-/

namespace Mnemos.SkipList

open List

variable {K : Type} {sl : SkipList K} {order front rest : List ℕ} {path : List (ℕ×ℕ)} {target : ℕ}

theorem At.remove_cases {post : List ℕ} {x : ℕ} (id : ℕ) (h : At (front++rest) x post) :
    (∃ low,post=low++rest ∧ At (front++id::rest) x (low++id::rest)) ∨
      ∃ pre,rest=pre++x::post := by
  obtain ⟨pre,hpre⟩ := h
  rw [← cons_append,append_eq_append_iff] at hpre
  rcases hpre with ⟨m,hm,hpost⟩ | ⟨m,hm,hpost⟩
  · exact .inr ⟨m,hpost⟩
  · cases m with
    | nil => exact .inr ⟨[],by rw [nil_append] at hpost ⊢; exact hpost.symm⟩
    | cons y m =>
      rw [cons_append,List.cons.injEq] at hpost
      refine .inl ⟨m,hpost.2,pre,?_⟩
      rw [← cons_append,hm,hpost.1,append_assoc,cons_append]

theorem backward_remove {old : ℕ → Option ℕ} (hsplit : order=front++target::rest)
    (hn : order.Nodup) (hold : ∀ pre x post,order=pre++x::post → old x=pre.getLast?)
    {pre post : List ℕ} {x : ℕ} (h : front++rest=pre++x::post) :
    (if rest.head?=some x then front.getLast? else old x)=pre.getLast? := by
  rw [hsplit,nodup_append,nodup_cons] at hn
  rw [append_eq_append_iff] at h
  have hback : ∀ m,pre=front++m → rest=m++x::post →
      (if rest.head?=some x then front.getLast? else old x)=pre.getLast? := by
    intro m hm hrest
    rw [hm]
    cases m with
    | nil => rw [hrest,nil_append,head?_cons,if_pos rfl,append_nil]
    | cons z m =>
      have hzx : z≠x := by
        have hnr := hn.2.1.2
        rw [hrest,cons_append,nodup_cons] at hnr
        rintro rfl
        exact hnr.1 (by simp)
      rw [hrest,cons_append,head?_cons,if_neg (fun hh => hzx (Option.some.inj hh)),
        hold (front++target::z::m) x post (by rw [hsplit,hrest]; simp),
        getLast?_append_of_ne_nil _ (cons_ne_nil z m),
        getLast?_append_of_ne_nil _ (cons_ne_nil target (z::m)),getLast?_cons_cons]
  rcases h with ⟨m,hm,hpost⟩ | ⟨m,hm,hpost⟩
  · exact hback m hm hpost
  · cases m with
    | nil =>
      rw [append_nil] at hm
      rw [nil_append] at hpost
      exact hback [] (by rw [hm,append_nil]) hpost.symm
    | cons y m =>
      rw [cons_append,List.cons.injEq] at hpost
      have hxf : x∈front := by rw [hm,← hpost.1]; simp
      have hxr : ¬ rest.head?=some x := fun hh =>
        hn.2.2 x hxf x (mem_cons_of_mem target (mem_of_mem_head? hh)) rfl
      rw [if_neg hxr,hold pre x (m++target::rest) (by rw [hsplit,hm,hpost.1]; simp)]

def unlinkedNodes (sl : SkipList K) (path : List (ℕ×ℕ)) (target : ℕ) : ℕ → SkipNode K :=
  (List.range sl.level).foldl (unlinkLevel target path) sl.nodes

theorem PathTo.unlink {total : ℕ} (hp : PathTo sl.nodes order sl.level path total rest)
    (target : ℕ) :
    LevelStep (K := K) (height sl.nodes) (unlinkLevel target path) (unlinkEffect target path)
      (List.range sl.level) :=
  unlinkStep fun i hi => by
    obtain ⟨-,-,htall,-⟩ := hp.entry i (mem_range.mp hi)
    exact htall

theorem PathTo.unlinked_frame {total : ℕ} (hp : PathTo sl.nodes order sl.level path total rest)
    (x : ℕ) : height (unlinkedNodes sl path target) x=height sl.nodes x ∧
      (unlinkedNodes sl path target x).item=(sl.nodes x).item ∧
      (unlinkedNodes sl path target x).backward=(sl.nodes x).backward :=
  (hp.unlink target).frame _ _ x

theorem PathTo.unlinked_levels {total : ℕ} (hp : PathTo sl.nodes order sl.level path total rest)
    (x i : ℕ) : levelAt (unlinkedNodes sl path target) x i=
      if i < sl.level then unlinkEffect target path i (fun y => levelAt sl.nodes y i) x
      else levelAt sl.nodes x i := by
  have h := (hp.unlink target).levels (fun j hj => hj) nodup_range sl.nodes
    (fun _ => rfl) x i
  rw [unlinkedNodes,h]
  simp only [mem_range]

theorem unlinked_links (hl : Linked sl order) (hsplit : order=front++target::rest)
    (hp : PathTo sl.nodes order sl.level path front.length (target::rest)) {x i : ℕ}
    {post : List ℕ} (hx : At (front++rest) x post) (hi : i < sl.level)
    (hheight : i < height sl.nodes x) :
    levelAt (unlinkedNodes sl path target) x i=hop (tall sl.nodes i) post := by
  obtain ⟨mid,hat,htall,hmid,-⟩ := hp.entry i hi
  have hstop := hl.links _ _ hat i hi htall
  rw [hop_append_low hmid] at hstop
  rw [hp.unlinked_levels,if_pos hi,unlinkEffect]
  dsimp only
  rcases hx.remove_cases target with ⟨low,rfl,hlowat⟩ | ⟨pre,hpre⟩
  · rw [← hsplit] at hlowat
    by_cases hall : ∀ z∈low,tall sl.nodes i z=false
    · obtain ⟨rfl,rfl⟩ := last_tall_unique hlowat hheight hall hat htall hmid
      rw [if_pos rfl,hstop,hop_append_low hall,find?_cons,gap]
      cases ht : tall sl.nodes i target with
      | true =>
        have hgone := hl.links target rest hlowat.step i hi (by simpa [tall] using ht)
        simp only [if_true,hgone,hop,SkipLevel.mk.injEq,true_and]
        omega
      | false =>
        have hne : rest.find? (tall sl.nodes i)≠some target := by
          intro hfind
          have hn := hl.nodup
          rw [hsplit,nodup_cons,nodup_append,nodup_cons] at hn
          exact hn.2.2.1.1 (mem_of_find?_eq_some hfind)
        simp only [if_neg hne,Bool.false_eq_true,if_false,SkipLevel.mk.injEq,true_and]
        omega
    · have hex : ∃ z∈low,tall sl.nodes i z=true := by simpa using hall
      rw [if_neg,hl.links x _ hlowat i hi hheight,hop_append_high hex,hop_append_high hex]
      rintro rfl
      have heq := append_cancel_right (hlowat.unique hl.nodup hat)
      obtain ⟨z,hz,ht⟩ := hex
      rw [hmid z (heq ▸ hz)] at ht
      cases ht
  · have hxat : At order x post := ⟨header::front++target::pre,by rw [hsplit,hpre]; simp⟩
    rw [if_neg,hl.links x post hxat i hi hheight]
    rintro rfl
    have heq := hxat.unique hl.nodup hat
    have hlen := congrArg List.length (heq.trans (by rw [hpre]))
    simp only [length_append,length_cons] at hlen
    omega

theorem dropLevels_spec (nodes : ℕ → SkipNode K) {n : ℕ} (hn : 0 < n) :
    0 < dropLevels nodes n ∧ dropLevels nodes n ≤ n ∧
      (∀ i,dropLevels nodes n ≤ i → i < n → (levelAt nodes header i).forward=none) ∧
      (dropLevels nodes n=1 ∨ (levelAt nodes header (dropLevels nodes n-1)).forward≠none) := by
  induction n with
  | zero => exact absurd hn (lt_irrefl 0)
  | succ n ih =>
    cases n with
    | zero => exact ⟨Nat.one_pos,le_rfl,fun i h h' => by rw [dropLevels] at h; omega,.inl rfl⟩
    | succ n =>
      rw [dropLevels]
      split
      · rename_i hnone
        obtain ⟨hpos,hle,hempty,htop⟩ := ih (Nat.succ_pos n)
        refine ⟨hpos,by omega,fun i h h' => ?_,htop⟩
        by_cases hi : i=n+1
        · rw [hi]
          exact hnone
        · exact hempty i h (by omega)
      · rename_i hsome
        exact ⟨by omega,le_rfl,fun i h h' => by omega,.inr hsome⟩

/-- The list fields after a removal, for nodes that differ from those of the loop in their
predecessors only. -/
theorem removed_linked (hl : Linked sl order) (hsplit : order=front++target::rest)
    (hp : PathTo sl.nodes order sl.level path front.length (target::rest))
    {nodes : ℕ → SkipNode K} {tail : Option ℕ}
    (hheight : ∀ x,height nodes x=height sl.nodes x)
    (hlevels : ∀ x i,levelAt nodes x i=levelAt (unlinkedNodes sl path target) x i)
    (hback : ∀ pre x post,front++rest=pre++x::post → (nodes x).backward=pre.getLast?)
    (htail : tail=(front++rest).getLast?) :
    Linked { sl with nodes := nodes, tail := tail, length := sl.length-1,
                     level := dropLevels nodes sl.level } (front++rest) := by
  obtain ⟨hpos,hle,hempty,-⟩ := dropLevels_spec nodes hl.levelPos
  have hsub : ∀ x∈front++rest,x∈order := by
    intro x hx
    rw [hsplit]
    simp only [mem_append,mem_cons] at hx ⊢
    tauto
  have htall : ∀ i,tall nodes i=tall sl.nodes i :=
    fun i => funext fun z => by rw [tall,tall,hheight]
  have hlinks : ∀ x post,At (front++rest) x post → ∀ i,i < sl.level → i < height nodes x →
      levelAt nodes x i=hop (tall nodes i) post := by
    intro x post hx i hi hxt
    rw [hheight] at hxt
    rw [hlevels,htall]
    exact unlinked_links hl hsplit hp hx hi hxt
  have hheader : ∀ i,i < sl.level → i < height nodes header := by
    intro i hi
    rw [hheight,hl.headerHeight]
    exact lt_of_lt_of_le hi hl.levelMax
  constructor
  · have hn := hl.nodup
    rw [hsplit] at hn
    have hsublist : (front++rest).Sublist (front++target::rest) :=
      Sublist.append_left (sublist_cons_self target rest) front
    exact (hsublist.cons_cons header).nodup hn
  · intro x hx
    rcases mem_cons.mp hx with h | h
    · rw [h]
      exact hl.allocated header mem_cons_self
    · exact hl.allocated x (mem_cons_of_mem header (hsub x h))
  · exact (hheight header).trans hl.headerHeight
  · intro x hx
    have hold := hl.heights x (hsub x hx)
    rw [hheight]
    refine ⟨hold.1,?_⟩
    -- A node above the levels kept would be reached from the header there.
    by_contra hhigh
    have hi : height sl.nodes x-1 < sl.level := by omega
    have hlink := hlinks header (front++rest) (At.start _) (height sl.nodes x-1) hi (hheader _ hi)
    have hnone := hempty (height sl.nodes x-1) (by dsimp only at hhigh; omega) hi
    rw [hlink] at hnone
    have hx' := find?_eq_none.mp hnone x hx
    rw [tall,hheight] at hx'
    simp only [decide_eq_true_eq] at hx'
    omega
  · exact hpos
  · exact le_trans hle hl.levelMax
  · intro x post hx i hi hxt
    exact hlinks x post hx i (lt_of_lt_of_le hi hle) hxt
  · intro i hi
    by_cases hlev : i < sl.level
    · exact hempty i hi hlev
    · rw [hlevels,hp.unlinked_levels,if_neg hlev]
      exact hl.unused i (by omega)
  · dsimp only
    rw [hl.length,hsplit]
    simp only [length_append,length_cons]
    omega
  · exact htail
  · exact hback

theorem remove_linked (hl : Linked sl order) (test wanted : K → Bool) :
    ∃ front rest,order=front++rest ∧
      (∀ x,front.getLast?=some x → test (sl.nodes x).item=true) ∧
      (∀ x,rest.head?=some x → test (sl.nodes x).item=false) ∧
      (∀ target back,rest=target::back → wanted (sl.nodes target).item=true →
        ∃ sl',sl.remove test wanted=(true,sl') ∧ Linked sl' (front++back) ∧
          ∀ x,(sl'.nodes x).item=(sl.nodes x).item) ∧
      ((∀ target,rest.head?=some target → wanted (sl.nodes target).item=false) →
        sl.remove test wanted=(false,sl)) := by
  obtain ⟨front,rest,hsplit,hp,hend,hnext,hlast,hhead⟩ := search_linked hl test
  have hbelong : ∀ z∈rest,z∈order := fun z hz => hend.mem hz
  refine ⟨front,rest,hsplit,hlast,hhead,?_,fun hnot => ?_⟩
  · rintro target back rfl hwanted
    have hn : order.Nodup := (nodup_cons.mp hl.nodup).2
    have hstep : At order target back := At.step (show At order _ ([]++target::back) from hend)
    have hback := hl.backward front target back hsplit
    have hbefore : (unlinkedNodes sl (sl.path test) target target).backward=front.getLast? :=
      (hp.unlinked_frame target).2.2.trans hback
    have hafter : (levelAt (unlinkedNodes sl (sl.path test) target) target 0).forward=
        back.head? := by
      have hne : target≠((sl.path test).getD 0 (header,0)).1 := by
        intro heq
        rw [← heq] at hend
        have hlen := congrArg List.length (hstep.unique hl.nodup hend)
        simp at hlen
      rw [hp.unlinked_levels,if_pos hl.levelPos,unlinkEffect]
      dsimp only
      rw [if_neg hne,hl.links target back hstep 0 hl.levelPos
        (hl.heights target (hbelong target mem_cons_self)).1]
      exact hl.first fun z hz => hbelong z (mem_cons_of_mem target hz)
    have hold : ∀ x,(unlinkedNodes sl (sl.path test) target x).backward=(sl.nodes x).backward :=
      fun x => (hp.unlinked_frame x).2.2
    rw [remove]
    dsimp only
    rw [hnext,head?_cons]
    dsimp only
    rw [if_pos hwanted,← unlinkedNodes,hafter,hbefore]
    cases back with
    | nil =>
      refine ⟨_,rfl,removed_linked hl hsplit hp (fun x => (hp.unlinked_frame x).1)
        (fun x i => rfl) (fun pre x post h => ?_) (by rw [append_nil]),
        fun x => (hp.unlinked_frame x).2.1⟩
      have hb := backward_remove hsplit hn hl.backward h
      rw [head?_nil,if_neg (by simp)] at hb
      rw [hold,hb]
    | cons y ys =>
      refine ⟨_,rfl,removed_linked hl hsplit hp
        (fun x => by rw [height_setBackward,(hp.unlinked_frame x).1])
        (fun x i => by rw [levelAt_setBackward]) (fun pre x post h => ?_) ?_,
        fun x => by rw [item_setBackward,(hp.unlinked_frame x).2.1]⟩
      · have hb := backward_remove hsplit hn hl.backward h
        rw [head?_cons] at hb
        rw [backward_setBackward,hold,← hb]
        by_cases hx : x=y
        · rw [if_pos hx,if_pos (by rw [hx])]
        · rw [if_neg hx,if_neg (fun hc => hx (Option.some.inj hc).symm)]
      · have ht := hl.tail
        rw [hsplit,getLast?_append_of_ne_nil _ (cons_ne_nil target (y::ys)),
          getLast?_cons_cons] at ht
        rw [ht,getLast?_append_of_ne_nil _ (cons_ne_nil y ys)]
  · rw [remove]
    dsimp only
    rw [hnext]
    cases hrest : rest with
    | nil => rfl
    | cons y ys =>
      have hno := hnot y (by rw [hrest]; rfl)
      rw [head?_cons]
      dsimp only
      rw [hno,if_neg Bool.false_ne_true]

end Mnemos.SkipList

/-! ## Skip lists as sequences of items -/

namespace Mnemos.SkipList

open List

variable {K : Type} {sl : SkipList K} {order : List ℕ}

def itemsOf (nodes : ℕ → SkipNode K) (order : List ℕ) : List K := order.map fun x => (nodes x).item

def Holds (sl : SkipList K) (xs : List K) : Prop :=
  ∃ order,Linked sl order ∧ itemsOf sl.nodes order=xs

theorem linked_nil {sl : SkipList K} (hheight : height sl.nodes header=maxLevel)
    (hlevels : ∀ i,levelAt sl.nodes header i=⟨none,0⟩) (hnext : header < sl.next)
    (htail : sl.tail=none) (hlength : sl.length=0) (hlevel : sl.level=1) : Linked sl [] := by
  constructor
  · exact nodup_singleton header
  · intro x hx
    rw [mem_singleton.mp hx]
    exact hnext
  · exact hheight
  · intro x hx
    cases hx
  · rw [hlevel]
    exact Nat.one_pos
  · rw [hlevel]
    decide
  · intro x post hx i hi hheight
    obtain ⟨pre,hpre⟩ := hx
    cases pre with
    | nil =>
      obtain ⟨rfl,rfl⟩ := List.cons.inj hpre
      exact hlevels i
    | cons y pre => simp at hpre
  · intro i hi
    rw [hlevels]
  · exact hlength
  · exact htail
  · intro pre x post h
    simp at h

theorem holds_empty [Inhabited K] : Holds (empty : SkipList K) [] :=
  ⟨[],linked_nil length_replicate (fun i => by simp [levelAt,empty]) Nat.one_pos rfl rfl rfl,rfl⟩

theorem walk_at (hl : Linked sl order) {x fuel : ℕ} {post : List ℕ} (hx : At order x post)
    (hfuel : post.length ≤ fuel) : walk sl.nodes fuel x=post := by
  induction fuel generalizing x post with
  | zero => rw [length_eq_zero_iff.mp (by omega : post.length=0)]; rfl
  | succ fuel ih =>
    have hheight : 0 < height sl.nodes x := by
      rcases mem_cons.mp hx.self with h | h
      · rw [h,hl.headerHeight]
        decide
      · exact (hl.heights x h).1
    have hnext : (levelAt sl.nodes x 0).forward=post.head? := by
      rw [hl.links x post hx 0 hl.levelPos hheight]
      exact hl.first fun z hz => hx.mem hz
    rw [walk,hnext]
    cases post with
    | nil => rfl
    | cons y ys =>
      rw [length_cons] at hfuel
      rw [head?_cons]
      dsimp only
      rw [ih (At.step (show At order x ([]++y::ys) from hx)) (by omega)]

variable {xs : List K}

theorem Holds.items (h : Holds sl xs) : sl.items=xs := by
  obtain ⟨order,hl,rfl⟩ := h
  rw [SkipList.items,walk_at hl (At.start order) (Nat.le_of_eq hl.length.symm)]
  rfl

theorem Holds.length (h : Holds sl xs) : sl.length=xs.length := by
  obtain ⟨order,hl,rfl⟩ := h
  rw [hl.length,itemsOf,length_map]

variable {test : K → Bool}

theorem itemsOf_last {b : Bool} {front : List ℕ} {y : K}
    (hlast : ∀ x,front.getLast?=some x → test (sl.nodes x).item=b)
    (hy : (itemsOf sl.nodes front).getLast?=some y) : test y=b := by
  rw [itemsOf,getLast?_map,Option.map_eq_some_iff] at hy
  obtain ⟨x,hx,rfl⟩ := hy
  exact hlast x hx

theorem itemsOf_head {b : Bool} {rest : List ℕ} {z : K}
    (hhead : ∀ x,rest.head?=some x → test (sl.nodes x).item=b)
    (hz : (itemsOf sl.nodes rest).head?=some z) : test z=b := by
  rw [itemsOf,head?_map,Option.map_eq_some_iff] at hz
  obtain ⟨x,hx,rfl⟩ := hz
  exact hhead x hx

theorem Holds.insert (h : Holds sl xs) (test : K → Bool) (item : K) {newLevel : ℕ}
    (hpos : 0 < newLevel) (hmax : newLevel ≤ maxLevel) :
    ∃ ys zs,xs=ys++zs ∧ Holds (sl.insert test item newLevel) (ys++item::zs) ∧
      (∀ y,ys.getLast?=some y → test y=true) ∧ ∀ z,zs.head?=some z → test z=false := by
  obtain ⟨order,hl,rfl⟩ := h
  obtain ⟨front,rest,hsplit,hlinked,hnew,hold,-,hlast,hhead⟩ := insert_linked hl test item hpos hmax
  refine ⟨itemsOf sl.nodes front,itemsOf sl.nodes rest,?_,⟨_,hlinked,?_⟩,
    fun _ => itemsOf_last hlast,fun _ => itemsOf_head hhead⟩
  · rw [hsplit]
    exact map_append
  · have hsame : ∀ part : List ℕ,(∀ x∈part,x∈order) →
        itemsOf (sl.insert test item newLevel).nodes part=itemsOf sl.nodes part :=
      fun part hpart => map_congr_left fun x hx => hold x (hpart x hx)
    rw [← hsame front fun x hx => by rw [hsplit]; exact mem_append_left _ hx,
      ← hsame rest fun x hx => by rw [hsplit]; exact mem_append_right _ hx]
    simp only [itemsOf,map_append,map_cons,hnew]

theorem Holds.remove (h : Holds sl xs) (test wanted : K → Bool) :
    ∃ ys zs,xs=ys++zs ∧ (∀ y,ys.getLast?=some y → test y=true) ∧
      (∀ z,zs.head?=some z → test z=false) ∧
      (∀ z back,zs=z::back → wanted z=true →
        ∃ sl',sl.remove test wanted=(true,sl') ∧ Holds sl' (ys++back)) ∧
      ((∀ z,zs.head?=some z → wanted z=false) → sl.remove test wanted=(false,sl)) := by
  obtain ⟨order,hl,rfl⟩ := h
  obtain ⟨front,rest,hsplit,hlast,hhead,hfound,hmissing⟩ := remove_linked hl test wanted
  refine ⟨itemsOf sl.nodes front,itemsOf sl.nodes rest,?_,fun _ => itemsOf_last hlast,
    fun _ => itemsOf_head hhead,fun z back hz hw => ?_,fun hnot => hmissing fun target ht => hnot _ ?_⟩
  · rw [hsplit]
    exact map_append
  · cases rest with
    | nil => cases hz
    | cons target rest =>
      obtain ⟨rfl,rfl⟩ := List.cons.inj hz
      obtain ⟨sl',hremove,hlinked,hitems⟩ := hfound target rest rfl hw
      refine ⟨sl',hremove,_,hlinked,?_⟩
      simp only [itemsOf,map_append,hitems]
  · rw [itemsOf,head?_map,ht]
    rfl

def itemsFrom (sl : SkipList K) : Option ℕ → List K
  | none => []
  | some x => (x::walk sl.nodes sl.length x).map fun y => (sl.nodes y).item

theorem Holds.search (h : Holds sl xs) (test : K → Bool) :
    ∃ ys zs,xs=ys++zs ∧ (∀ y,ys.getLast?=some y → test y=true) ∧
      (∀ z,zs.head?=some z → test z=false) ∧
      sl.itemsFrom (levelAt sl.nodes ((sl.path test).getD 0 (header,0)).1 0).forward=zs := by
  obtain ⟨order,hl,rfl⟩ := h
  obtain ⟨front,rest,hsplit,-,hend,hnext,hlast,hhead⟩ := search_linked hl test
  refine ⟨itemsOf sl.nodes front,itemsOf sl.nodes rest,?_,fun _ => itemsOf_last hlast,
    fun _ => itemsOf_head hhead,?_⟩
  · rw [hsplit]
    exact map_append
  · rw [hnext]
    cases rest with
    | nil => rfl
    | cons x rest =>
      have hx : At order x rest := At.step (show At order _ ([]++x::rest) from hend)
      have hlen : rest.length ≤ sl.length := by
        rw [hl.length,hsplit,length_append,length_cons]
        omega
      unfold itemsFrom
      rw [head?_cons]
      dsimp only
      rw [walk_at hl hx hlen]
      rfl

theorem Holds.tail (h : Holds sl xs) :
    sl.tail.map (fun x => (sl.nodes x).item)=xs.getLast? := by
  obtain ⟨order,hl,rfl⟩ := h
  rw [hl.tail,itemsOf,getLast?_map]

/-- What a rank search knows about the order: the wanted node, reachable nodes before it and
unreachable nodes after it. -/
structure Sought (nodes : ℕ → SkipNode K) (reach wanted : K → Bool) (order front : List ℕ)
    (target : ℕ) (back : List ℕ) : Prop where
  split : order=front++target::back
  before : ∀ x∈front,reach (nodes x).item=true ∧ wanted (nodes x).item=false
  found : reach (nodes target).item=true ∧ wanted (nodes target).item=true
  after : ∀ x∈back,reach (nodes x).item=false

/-- One level of a rank search finds the wanted node or stops in front of it, and then the
wanted node does not take part in this level. -/
theorem seekRank_spec (hl : Linked sl order) {reach wanted : K → Bool} {front back : List ℕ}
    {target : ℕ} (hs : Sought sl.nodes reach wanted order front target back) {i : ℕ}
    (hi : i < sl.level) {fuel x rank : ℕ} {mid : List ℕ} (hx : At order x (mid++target::back))
    (hmid : ∀ z∈mid,z∈front) (hheight : i < height sl.nodes x)
    (hfuel : (mid++target::back).length ≤ fuel)
    (hrank : rank+(mid++target::back).length=order.length) :
    (seekRank sl.nodes reach wanted i fuel x rank).1=some front.length ∨
      ((seekRank sl.nodes reach wanted i fuel x rank).1=none ∧
        i < height sl.nodes (seekRank sl.nodes reach wanted i fuel x rank).2.1 ∧
        tall sl.nodes i target=false ∧
        ∃ mid',At order (seekRank sl.nodes reach wanted i fuel x rank).2.1 (mid'++target::back) ∧
          (∀ z∈mid',z∈front) ∧
          (seekRank sl.nodes reach wanted i fuel x rank).2.2+(mid'++target::back).length=
            order.length) := by
  induction fuel generalizing x rank mid with
  | zero =>
    simp only [length_append,length_cons] at hfuel
    omega
  | succ fuel ih =>
    have horder := congrArg List.length hs.split
    simp only [length_append,length_cons] at horder hfuel hrank
    have hlink := hl.links x _ hx i hi hheight
    rw [seekRank,hlink]
    cases hnext : (mid++target::back).find? (tall sl.nodes i) with
    | none =>
      simp only [hop,hnext]
      refine .inr ⟨trivial,hheight,?_,mid,hx,hmid,?_⟩
      · simpa using find?_eq_none.mp hnext target (by simp)
      · simp only [length_append,length_cons]
        exact hrank
    | some y =>
      obtain ⟨low,behind,hsplit,hyt,hlow⟩ := find_split hnext
      have hgap : gap (tall sl.nodes i) (mid++target::back)=low.length+1 := by
        rw [hsplit,gap_low hyt hlow]
      have hlen := congrArg List.length hsplit
      simp only [length_append,length_cons] at hlen
      simp only [hop,hnext,hgap]
      have hcompare := hsplit
      rw [append_eq_append_iff] at hcompare
      have hat : y=target → behind=back → rank+(low.length+1)-1=front.length := by
        intro hy hb
        rw [hb] at hlen
        omega
      rcases hcompare with ⟨m,hm,hpost⟩ | ⟨m,hm,hpost⟩
      · cases m with
        | nil =>
          rw [nil_append,List.cons.injEq] at hpost
          rw [← hpost.1,hs.found.1,hs.found.2]
          exact .inl (congrArg some (hat hpost.1.symm hpost.2.symm))
        | cons z m =>
          -- The wanted node is among the low ones, so that the walk stops here.
          rw [cons_append,List.cons.injEq] at hpost
          have hyb : y∈back := by rw [hpost.2]; simp
          rw [hs.after y hyb,if_neg Bool.false_ne_true]
          refine .inr ⟨rfl,hheight,hlow target (by rw [hm,hpost.1]; simp),mid,hx,hmid,?_⟩
          simp only [length_append,length_cons]
          exact hrank
      · cases m with
        | nil =>
          rw [nil_append,List.cons.injEq] at hpost
          rw [hpost.1,hs.found.1,hs.found.2]
          exact .inl (congrArg some (hat hpost.1 hpost.2))
        | cons z m =>
          rw [cons_append,List.cons.injEq] at hpost
          obtain ⟨rfl,hbehind⟩ := hpost
          have hy := hs.before y (hmid y (by rw [hm]; simp))
          have hplace : At order y (m++target::back) := by
            rw [hm,append_assoc] at hx
            exact hx.step
          have hcount : rank+(low.length+1)+(m++target::back).length=order.length := by
            rw [← hbehind]
            omega
          rw [hy.1,hy.2,if_pos rfl]
          simp only [Bool.false_eq_true,if_false]
          exact ih hplace (fun z hz => hmid z (by rw [hm]; simp [hz])) hyt
            (by rw [← hbehind]; omega) hcount

theorem seekLevels_spec (hl : Linked sl order) {reach wanted : K → Bool} {front back : List ℕ}
    {target : ℕ} (hs : Sought sl.nodes reach wanted order front target back) {n : ℕ}
    (hn : n ≤ sl.level) (hpos : 0 < n) {x rank : ℕ} {mid : List ℕ}
    (hx : At order x (mid++target::back)) (hmid : ∀ z∈mid,z∈front)
    (hheight : n ≤ height sl.nodes x)
    (hrank : rank+(mid++target::back).length=order.length) :
    seekLevels sl.nodes reach wanted sl.length n x rank=some front.length := by
  induction n generalizing x rank mid with
  | zero => exact absurd hpos (lt_irrefl 0)
  | succ n ih =>
    have hlen : (mid++target::back).length ≤ sl.length := by
      rw [hl.length]
      omega
    have hspec := seekRank_spec hl hs (by omega : n < sl.level) hx hmid (by omega) hlen hrank
    rw [seekLevels]
    generalize seekRank sl.nodes reach wanted n sl.length x rank=result at hspec
    obtain ⟨found,y,rank'⟩ := result
    rcases hspec with hfound | ⟨hnone,hy,htall,mid',hat,hmid',hrank'⟩
    · dsimp only at hfound
      rw [hfound]
    · dsimp only at hnone hy hat hrank'
      rw [hnone]
      dsimp only
      cases n with
      | zero =>
        have htarget : target∈order := by rw [hs.split]; simp
        rw [tall,decide_eq_false_iff_not] at htall
        exact absurd (hl.heights target htarget).1 htall
      | succ n => exact ih (by omega) (Nat.succ_pos n) hat hmid' (by omega) hrank'

theorem Holds.rankOf {ys zs : List K} {x : K} (h : Holds sl xs) (reach wanted : K → Bool)
    (hsplit : xs=ys++x::zs) (hbefore : ∀ y∈ys,reach y=true ∧ wanted y=false)
    (hfound : reach x=true ∧ wanted x=true) (hafter : ∀ z∈zs,reach z=false) :
    sl.rankOf reach wanted=some ys.length := by
  obtain ⟨order,hl,hitems⟩ := h
  rw [hsplit,itemsOf,map_eq_append_iff] at hitems
  obtain ⟨front,rest,horder,rfl,hrest⟩ := hitems
  rw [map_eq_cons_iff] at hrest
  obtain ⟨target,back,rfl,rfl,rfl⟩ := hrest
  have hs : Sought sl.nodes reach wanted order front target back :=
    ⟨horder,fun y hy => hbefore _ (mem_map_of_mem hy),hfound,
      fun z hz => hafter _ (mem_map_of_mem hz)⟩
  rw [SkipList.rankOf,length_map]
  exact seekLevels_spec hl hs le_rfl hl.levelPos (horder ▸ At.start order) (fun z hz => hz)
    (by rw [hl.headerHeight]; exact hl.levelMax) (by rw [Nat.zero_add,horder])

/-- Only one split has a passing last item before it and a failing head behind it when the
items that pass are the first ones. -/
theorem split_unique {test : K → Bool} {ys zs ys' zs' : List K} (h : ys++zs=ys'++zs')
    (hpass : ∀ y∈ys,test y=true) (hfail : ∀ z∈zs,test z=false)
    (hlast : ∀ y,ys'.getLast?=some y → test y=true)
    (hhead : ∀ z,zs'.head?=some z → test z=false) : ys=ys' ∧ zs=zs' := by
  rcases append_eq_append_iff.mp h with ⟨mid,rfl,rfl⟩ | ⟨mid,rfl,rfl⟩
  · rcases eq_nil_or_concat mid with rfl | ⟨mid,x,rfl⟩
    · exact ⟨(append_nil ys).symm,rfl⟩
    · have htrue := hlast x (by simp)
      have hfalse := hfail x (by simp)
      rw [htrue] at hfalse
      cases hfalse
  · cases mid with
    | nil => exact ⟨append_nil ys',rfl⟩
    | cons x mid =>
      have htrue := hpass x (by simp)
      have hfalse := hhead x (by simp)
      rw [htrue] at hfalse
      cases hfalse

theorem Holds.insert_at {ys zs : List K} (h : Holds sl (ys++zs)) (item : K)
    {newLevel : ℕ} (hpos : 0 < newLevel) (hmax : newLevel ≤ maxLevel)
    (hpass : ∀ y∈ys,test y=true) (hfail : ∀ z∈zs,test z=false) :
    Holds (sl.insert test item newLevel) (ys++item::zs) := by
  obtain ⟨ys',zs',hsplit,hholds,hlast,hhead⟩ := h.insert test item hpos hmax
  obtain ⟨rfl,rfl⟩ := split_unique hsplit hpass hfail hlast hhead
  exact hholds

theorem Holds.remove_at {ys zs : List K} {x : K} (h : Holds sl (ys++x::zs)) {wanted : K → Bool}
    (hpass : ∀ y∈ys,test y=true) (hfail : ∀ z∈x::zs,test z=false) (hx : wanted x=true) :
    ∃ sl',sl.remove test wanted=(true,sl') ∧ Holds sl' (ys++zs) := by
  obtain ⟨ys',zs',hsplit,hlast,hhead,hremove,-⟩ := h.remove test wanted
  obtain ⟨rfl,rfl⟩ := split_unique hsplit hpass hfail hlast hhead
  exact hremove x zs rfl hx

end Mnemos.SkipList
