import Mathlib.Logic.Function.Iterate
import Mnemos.Collections
import Mnemos.Refinement

/-!
# Lists

A list is a sequence of listpack nodes, each within a byte budget unless a
single element exceeds it.
-/

namespace Mnemos

open List

structure ListValue where
  encoding : ObjEncoding
  nodes : List Listpack
deriving DecidableEq,Repr

namespace ListValue

def empty : ListValue := ⟨.listPack,[.empty]⟩

def size (l : ListValue) : ℕ := (l.nodes.map Listpack.numElements).sum

def maybeConvert (nodes : List Listpack) : ListValue :=
  match nodes with
  | [node] =>
    if node.totalBytes ≤ defaultLimits.listMaxListpackBytes then ⟨.listPack,nodes⟩
    else ⟨.quickList,nodes⟩
  | nodes => ⟨.quickList,nodes⟩

def adoptNodes (nodes : List Listpack) : Option ListValue :=
  if (nodes.map Listpack.numElements).sum=0 then none else some (maybeConvert nodes)

def wouldOverflowNode (node : Listpack) (value : Bytes) : Bool :=
  0 < node.numElements && defaultLimits.listMaxListpackBytes < node.totalBytes+value.length+11

def appendTo (nodes : List Listpack) (value : Bytes) : List Listpack :=
  match nodes.getLast? with
  | none => [Listpack.empty.append value]
  | some last =>
    if wouldOverflowNode last value then nodes++[Listpack.empty.append value]
    else nodes.dropLast++[last.append value]

def pushBack (l : ListValue) (value : Bytes) : ListValue := maybeConvert (appendTo l.nodes value)

def insertFront (node : Listpack) (value : Bytes) : Listpack := (node.insertAt 0 value).getD node

def pushFront (l : ListValue) (value : Bytes) : ListValue :=
  match l.nodes with
  | [] => maybeConvert [insertFront .empty value]
  | first::rest =>
    if wouldOverflowNode first value then
      maybeConvert (insertFront .empty value::first::rest)
    else maybeConvert (insertFront first value::rest)

def popFront (l : ListValue) : Option Bytes×ListValue :=
  let skipped := l.nodes.takeWhile (·.numElements==0)
  match l.nodes.dropWhile (·.numElements==0) with
  | [] => (none,l)
  | node::rest =>
    match node.get 0 with
    | none => (none,l)
    | some element =>
      let node := (node.eraseAt 0).getD node
      if node.numElements==0 && 1 < l.nodes.length then
        (some element.toString,maybeConvert (skipped++rest))
      else (some element.toString,maybeConvert (skipped++node::rest))

def popBack (l : ListValue) : Option Bytes×ListValue :=
  let skipped := l.nodes.reverse.takeWhile (·.numElements==0)
  match l.nodes.reverse.dropWhile (·.numElements==0) with
  | [] => (none,l)
  | node::rest =>
    let count := node.numElements
    match node.get (count-1) with
    | none => (none,l)
    | some element =>
      let node := (node.eraseAt (count-1)).getD node
      if node.numElements==0 && 1 < l.nodes.length then
        (some element.toString,maybeConvert (skipped++rest).reverse)
      else (some element.toString,maybeConvert (skipped++node::rest).reverse)

def resolveIndex (l : ListValue) (index : ℤ) : Option ℕ :=
  let length : ℤ := l.size
  let index := if index < 0 then index+length else index
  if index < 0 || length ≤ index then none else some index.toNat

def toVector (l : ListValue) : List Bytes := l.nodes.flatMap Listpack.toStrings

def rebuildFrom (items : List Bytes) : ListValue :=
  maybeConvert (items.foldl appendTo [.empty])

def atNodes : List Listpack → ℕ → Option Bytes
  | [],_ => none
  | node::rest,remaining =>
    let count := node.numElements
    if remaining < count then (node.get remaining).map Element.toString
    else atNodes rest (remaining-count)

def at_ (l : ListValue) (index : ℤ) : Option Bytes :=
  match l.resolveIndex index with
  | none => none
  | some resolved => atNodes l.nodes resolved

def setNodes (value : Bytes) : List Listpack → ℕ → Option (List Listpack)
  | [],_ => none
  | node::rest,remaining =>
    let count := node.numElements
    if remaining < count then (node.replaceAt remaining value).map (·::rest)
    else (setNodes value rest (remaining-count)).map (node::·)

def set (l : ListValue) (index : ℤ) (value : Bytes) : Bool×ListValue :=
  match l.resolveIndex index with
  | none => (false,l)
  | some resolved =>
    match setNodes value l.nodes resolved with
    | none => (false,l)
    | some nodes => (true,{ l with nodes := nodes })

def range (l : ListValue) (start stop : ℤ) : List Bytes :=
  let length : ℤ := l.size
  if length=0 then []
  else
    let start := if start < 0 then start+length else start
    let stop := if stop < 0 then stop+length else stop
    let start := if start < 0 then 0 else start
    let stop := if length ≤ stop then length-1 else stop
    if stop < start || length ≤ start then []
    else (l.toVector.take (stop.toNat+1)).drop start.toNat

def indexOfNodes (value : Bytes) : List Listpack → ℕ → Option ℕ
  | [],_ => none
  | node::rest,index =>
    match node.find value 0 1 with
    | some found => some (index+found)
    | none => indexOfNodes value rest (index+node.numElements)

def indexOf (l : ListValue) (value : Bytes) : Option ℕ := indexOfNodes value l.nodes 0

/-- The loop of `removeValue`: what is left and how many were removed. -/
def removeLoop (value : Bytes) : ℕ → List Bytes → List Bytes×ℕ
  | _,[] => ([],0)
  | 0,items => (items,0)
  | limit+1,item::items =>
    if item=value then
      let (left,removed) := removeLoop value limit items
      (left,removed+1)
    else
      let (left,removed) := removeLoop value (limit+1) items
      (item::left,removed)

def removeItems (value : Bytes) (count : ℤ) (items : List Bytes) : List Bytes×ℕ :=
  let limit := if count=0 then items.length else count.natAbs
  if 0 ≤ count then removeLoop value limit items
  else
    let (left,removed) := removeLoop value limit items.reverse
    (left.reverse,removed)

def removeValue (l : ListValue) (value : Bytes) (count : ℤ) : ℕ×ListValue :=
  let (left,removed) := removeItems value count l.toVector
  if 0 < removed then (removed,rebuildFrom left) else (removed,l)

def trim (l : ListValue) (start stop : ℤ) : ListValue := rebuildFrom (l.range start stop)

def texts (nodes : List Listpack) : List Bytes := nodes.flatMap Listpack.toStrings

/-- Nodes of a list: some node, and none empty unless it is the only one. -/
structure Shape (nodes : List Listpack) : Prop where
  plain : ∀ node∈nodes,node.Plain
  some : nodes≠[]
  full : ∀ node∈nodes,node.toStrings≠[] ∨ nodes=[node]

def Ok (l : ListValue) : Prop := Shape l.nodes

@[simp] theorem maybeConvert_nodes (nodes : List Listpack) : (maybeConvert nodes).nodes=nodes := by
  unfold maybeConvert
  split
  · split <;> rfl
  · rfl

theorem empty_ok : empty.Ok := by
  refine ⟨fun node hnode => ?_,cons_ne_nil _ _,fun node hnode => .inr ?_⟩
  · rw [mem_singleton.mp hnode]
    exact Listpack.plain_empty.1
  · rw [mem_singleton.mp hnode]
    rfl

variable {nodes : List Listpack} {l : ListValue} {value : Bytes} {node : Listpack}

theorem shape_of_full (hplain : ∀ node∈nodes,node.Plain) (hsome : nodes≠[])
    (hfull : ∀ node∈nodes,node.toStrings≠[]) : Shape nodes :=
  ⟨hplain,hsome,fun node hnode => .inl (hfull node hnode)⟩

theorem Shape.size (hplain : ∀ node∈nodes,node.Plain) :
    (nodes.map Listpack.numElements).sum=(texts nodes).length := by
  rw [texts,length_flatMap]
  congr 1
  exact map_congr_left fun node hnode => (hplain node hnode).numElements

theorem Shape.text_lt (h : Shape nodes) {x : Bytes} (hx : x∈texts nodes) :
    x.length < 2^32 := by
  obtain ⟨node,hnode,hx⟩ := mem_flatMap.mp hx
  exact Listpack.Holds.text_lt (h.plain node hnode) hx

theorem nonempty_of_wouldOverflowNode (h : node.Plain) (hover : wouldOverflowNode node value=true)
    : node.toStrings≠[] := by
  intro hnil
  rw [wouldOverflowNode,h.numElements,hnil] at hover
  cases hover

theorem Shape.full_of_two (h : Shape nodes) (hlen : 1 < nodes.length) (hnode : node∈nodes) :
    node.toStrings≠[] := by
  rcases h.full node hnode with hfull | halone
  · exact hfull
  · rw [halone,length_singleton] at hlen
    omega

theorem appendTo_spec (h : Shape nodes) (hsize : value.length < 2^32) :
    Shape (appendTo nodes value) ∧ texts (appendTo nodes value)=texts nodes++[value] := by
  obtain ⟨front,last,rfl⟩ : ∃ front last,nodes=front++[last] :=
    ⟨_,_,(dropLast_concat_getLast h.some).symm⟩
  have hlast := h.plain last (by simp)
  obtain ⟨hfresh,hfreshTexts⟩ := Listpack.plain_empty.1.append hsize
  rw [Listpack.plain_empty.2,nil_append] at hfreshTexts
  obtain ⟨hplain,htexts⟩ := hlast.append hsize
  rw [appendTo,getLast?_concat]
  dsimp only
  -- nodes before the last stand with it, so they are full
  have hfront : ∀ node∈front,node.toStrings≠[] := by
    intro node hnode
    refine h.full_of_two ?_ (mem_append_left _ hnode)
    have hpos := length_pos_of_mem hnode
    rw [length_append,length_singleton]
    omega
  split
  · rename_i hover
    refine ⟨shape_of_full ?_ (by simp) ?_,?_⟩
    · intro node hnode
      rcases mem_append.mp hnode with hnode | hnode
      · exact h.plain node hnode
      · rw [mem_singleton.mp hnode]
        exact hfresh
    · intro node hnode
      rcases mem_append.mp hnode with hnode | hnode
      · rcases mem_append.mp hnode with hnode | hnode
        · exact hfront node hnode
        · rw [mem_singleton.mp hnode]
          exact nonempty_of_wouldOverflowNode hlast hover
      · rw [mem_singleton.mp hnode,hfreshTexts]
        exact cons_ne_nil _ _
    · simp only [texts,flatMap_append,flatMap_cons,flatMap_nil,hfreshTexts,
        append_nil]
  · rw [dropLast_concat]
    refine ⟨shape_of_full ?_ (by simp) ?_,?_⟩
    · intro node hnode
      rcases mem_append.mp hnode with hnode | hnode
      · exact h.plain node (mem_append_left _ hnode)
      · rw [mem_singleton.mp hnode]
        exact hplain
    · intro node hnode
      rcases mem_append.mp hnode with hnode | hnode
      · exact hfront node hnode
      · rw [mem_singleton.mp hnode,htexts]
        simp
    · simp only [texts,flatMap_append,flatMap_cons,flatMap_nil,htexts,
        append_nil,append_assoc]

theorem foldl_appendTo (items : List Bytes) (h : Shape nodes) (hsize : ∀ x∈items,x.length < 2^32) :
    Shape (items.foldl appendTo nodes) ∧ texts (items.foldl appendTo nodes)=texts nodes++items := by
  induction items generalizing nodes with
  | nil => exact ⟨h,(append_nil _).symm⟩
  | cons x items ih =>
    obtain ⟨hshape,htexts⟩ := appendTo_spec h (hsize x mem_cons_self)
    obtain ⟨hshape',htexts'⟩ := ih hshape fun y hy => hsize y (mem_cons_of_mem _ hy)
    refine ⟨hshape',?_⟩
    rw [foldl_cons,htexts',htexts,append_assoc,singleton_append]

theorem maybeConvert_keeps {nodes : List Listpack} {xs : List Bytes} (hshape : Shape nodes)
    (htexts : texts nodes=xs) : (maybeConvert nodes).Ok ∧ (maybeConvert nodes).toVector=xs := by
  rw [Ok,toVector,maybeConvert_nodes]
  exact ⟨hshape,htexts⟩

theorem rebuildFrom_spec {items : List Bytes} (hsize : ∀ x∈items,x.length < 2^32) :
    (rebuildFrom items).Ok ∧ (rebuildFrom items).toVector=items := by
  obtain ⟨hshape,htexts⟩ := foldl_appendTo items empty_ok hsize
  rw [show texts empty.nodes=[] by simp [texts,empty,Listpack.plain_empty.2],
    nil_append] at htexts
  exact maybeConvert_keeps hshape htexts

theorem Ok.pushBack (h : l.Ok) (hsize : value.length < 2^32) :
    (l.pushBack value).Ok ∧ (l.pushBack value).toVector=l.toVector++[value] := by
  obtain ⟨hshape,htexts⟩ := appendTo_spec h hsize
  exact maybeConvert_keeps hshape htexts

theorem insertFront_spec (h : node.Plain) (hsize : value.length < 2^32) :
    (insertFront node value).Plain ∧ (insertFront node value).toStrings=value::node.toStrings := by
  obtain ⟨node',hinsert,hplain,htexts⟩ := h.insertAt hsize (Nat.zero_le _)
  rw [insertFront,hinsert]
  exact ⟨hplain,htexts⟩

theorem Ok.pushFront (h : l.Ok) (hsize : value.length < 2^32) :
    (l.pushFront value).Ok ∧ (l.pushFront value).toVector=value::l.toVector := by
  obtain ⟨encoding,nodes⟩ := l
  cases nodes with
  | nil => exact absurd rfl h.some
  | cons first rest =>
    have hfirst := h.plain first mem_cons_self
    obtain ⟨hfresh,hfreshTexts⟩ := insertFront_spec Listpack.plain_empty.1 hsize
    rw [Listpack.plain_empty.2] at hfreshTexts
    obtain ⟨hplain,htexts⟩ := insertFront_spec hfirst hsize
    have hrest : ∀ node∈rest,node.toStrings≠[] := by
      intro node hnode
      refine h.full_of_two ?_ (mem_cons_of_mem _ hnode)
      have hpos := length_pos_of_mem hnode
      rw [length_cons]
      omega
    rw [ListValue.pushFront]
    dsimp only
    split
    · rename_i hover
      refine ⟨?_,by rw [toVector,maybeConvert_nodes,flatMap_cons,hfreshTexts]; rfl⟩
      rw [Ok,maybeConvert_nodes]
      refine shape_of_full ?_ (cons_ne_nil _ _) ?_
      · exact forall_mem_cons.mpr ⟨hfresh,h.plain⟩
      · refine forall_mem_cons.mpr ⟨by rw [hfreshTexts]; exact cons_ne_nil _ _,?_⟩
        exact forall_mem_cons.mpr ⟨nonempty_of_wouldOverflowNode hfirst hover,hrest⟩
    · refine ⟨?_,by rw [toVector,maybeConvert_nodes,flatMap_cons,htexts]; rfl⟩
      rw [Ok,maybeConvert_nodes]
      refine shape_of_full ?_ (cons_ne_nil _ _) ?_
      · exact forall_mem_cons.mpr ⟨hplain,fun node hnode =>
          h.plain node (mem_cons_of_mem _ hnode)⟩
      · exact forall_mem_cons.mpr ⟨by rw [htexts]; exact cons_ne_nil _ _,hrest⟩

theorem Shape.search (h : Shape nodes) :
    (nodes.dropWhile (·.numElements==0)=[] ∧ texts nodes=[]) ∨
    (nodes.takeWhile (·.numElements==0)=[] ∧ nodes.dropWhile (·.numElements==0)=nodes ∧
      ∀ node∈nodes,node.toStrings≠[]) := by
  cases nodes with
  | nil => exact absurd rfl h.some
  | cons first rest =>
    have hfirst := h.plain first mem_cons_self
    by_cases hnil : first.toStrings=[]
    · have halone : first::rest=[first] :=
        (h.full first mem_cons_self).resolve_left fun hfull => hfull hnil
      rw [halone]
      have hzero : first.numElements=0 := by rw [hfirst.numElements,hnil]; rfl
      exact .inl ⟨by simp [hzero],by simp [texts,hnil]⟩
    · have hpos : (first.numElements==0)=false := by
        rw [hfirst.numElements,beq_eq_false_iff_ne]
        exact fun hzero => hnil (length_eq_zero_iff.mp hzero)
      refine .inr ⟨by rw [takeWhile_cons,if_neg (by simp [hpos])],
        by rw [dropWhile_cons,if_neg (by simp [hpos])],?_⟩
      refine forall_mem_cons.mpr ⟨hnil,fun node hnode => ?_⟩
      refine h.full_of_two ?_ (mem_cons_of_mem _ hnode)
      have hlen := length_pos_of_mem hnode
      rw [length_cons]
      omega

theorem Shape.shrink (before after : List Listpack) {node node' : Listpack}
    (h : Shape (before++node::after)) (hfull : ∀ n∈before++node::after,n.toStrings≠[])
    (hplain : node'.Plain) :
    (let nodes := if node'.numElements==0 && 1 < (before++node::after).length then before++after
      else before++node'::after
    Shape nodes ∧ texts nodes=texts before++(node'.toStrings++texts after)) := by
  have hmem : ∀ n∈before++after,n∈before++node::after := fun n hn => by
    rcases mem_append.mp hn with hn | hn
    · exact mem_append_left _ hn
    · exact mem_append_right _ (mem_cons_of_mem _ hn)
  dsimp only
  rw [hplain.numElements]
  split
  · rename_i hlast
    simp only [Bool.and_eq_true,beq_iff_eq,length_append,length_cons,
      decide_eq_true_eq] at hlast
    refine ⟨shape_of_full (fun n hn => h.plain n (hmem n hn)) ?_ fun n hn => hfull n (hmem n hn),?_⟩
    · refine ne_nil_of_length_pos ?_
      rw [length_append]
      omega
    · rw [length_eq_zero_iff.mp hlast.1,nil_append]
      exact flatMap_append
  · rename_i hlast
    simp only [Bool.and_eq_true,beq_iff_eq,length_append,length_cons,
      decide_eq_true_eq,not_and] at hlast
    refine ⟨⟨fun n hn => ?_,by simp,fun n hn => ?_⟩,?_⟩
    · rcases mem_append.mp hn with hn | hn
      · exact h.plain n (hmem n (mem_append_left _ hn))
      · rcases mem_cons.mp hn with rfl | hn
        · exact hplain
        · exact h.plain n (hmem n (mem_append_right _ hn))
    · rcases mem_append.mp hn with hn | hn
      · exact .inl (hfull n (hmem n (mem_append_left _ hn)))
      · rcases mem_cons.mp hn with rfl | hn
        · by_cases hnil : n.toStrings=[]
          · have halone := hlast (by rw [hnil]; rfl)
            have hbefore : before=[] := length_eq_zero_iff.mp (by omega)
            have hafter : after=[] := length_eq_zero_iff.mp (by omega)
            exact .inr (by rw [hbefore,hafter]; rfl)
          · exact .inl hnil
        · exact .inl (hfull n (hmem n (mem_append_right _ hn)))
    · rw [texts,flatMap_append,flatMap_cons]
      rfl

theorem Shape.reverse (h : Shape nodes) : Shape nodes.reverse := by
  refine ⟨fun n hn => h.plain n (mem_reverse.mp hn),
    fun hnil => h.some (reverse_eq_nil_iff.mp hnil),fun n hn => ?_⟩
  rcases h.full n (mem_reverse.mp hn) with hfull | halone
  · exact .inl hfull
  · exact .inr (by rw [halone]; rfl)

theorem Ok.popFront (h : l.Ok) :
    l.popFront.2.Ok ∧ l.popFront.1=l.toVector.head? ∧ l.popFront.2.toVector=l.toVector.tail := by
  obtain ⟨encoding,nodes⟩ := l
  rw [ListValue.popFront]
  dsimp only
  rcases Shape.search h with ⟨hdrop,hnil⟩ | ⟨htake,hdrop,hfull⟩
  · rw [hdrop]
    refine ⟨h,?_,?_⟩ <;> rw [toVector,show nodes.flatMap Listpack.toStrings=[] from hnil] <;> rfl
  · rw [hdrop,htake]
    cases nodes with
    | nil => exact absurd rfl h.some
    | cons node rest =>
      have hnode := h.plain node mem_cons_self
      obtain ⟨x,xs,hxs⟩ := exists_cons_of_ne_nil (hfull node mem_cons_self)
      have hlen : 0+1 ≤ node.toStrings.length := by rw [hxs,length_cons]; omega
      obtain ⟨node',herase,hplain,htexts⟩ := hnode.eraseRange Nat.one_pos hlen
      have htail : node'.toStrings=xs := by rw [htexts,hxs]; rfl
      have hget : node.get 0=some (elementOf x) := by rw [hnode.get,hxs]; rfl
      have hvector : (ListValue.mk encoding (node::rest)).toVector=x::(xs++texts rest) := by
        rw [toVector,flatMap_cons,hxs]
        rfl
      obtain ⟨hshape,hnew⟩ := Shape.shrink [] rest h hfull hplain
      rw [htail] at hnew
      dsimp only
      rw [hget,Listpack.eraseAt,herase,hvector]
      dsimp only [Option.getD_some]
      rw [toString_elementOf]
      split
      · rename_i hlast
        rw [nil_append,if_pos hlast] at hshape hnew
        exact ⟨(maybeConvert_keeps hshape hnew).1,rfl,(maybeConvert_keeps hshape hnew).2⟩
      · rename_i hlast
        rw [nil_append,if_neg hlast] at hshape hnew
        exact ⟨(maybeConvert_keeps hshape hnew).1,rfl,(maybeConvert_keeps hshape hnew).2⟩

theorem Ok.popBack (h : l.Ok) :
    l.popBack.2.Ok ∧ l.popBack.1=l.toVector.getLast? ∧
      l.popBack.2.toVector=l.toVector.dropLast := by
  obtain ⟨encoding,nodes⟩ := l
  rw [ListValue.popBack]
  dsimp only
  rcases Shape.search (Shape.reverse h) with ⟨hdrop,hnil⟩ | ⟨htake,hdrop,hfull⟩
  · rw [hdrop]
    have hvector : nodes.flatMap Listpack.toStrings=[] := by
      rw [flatMap_eq_nil_iff]
      exact fun n hn => flatMap_eq_nil_iff.mp hnil n (mem_reverse.mpr hn)
    refine ⟨h,?_,?_⟩ <;> rw [toVector,hvector] <;> rfl
  · rw [hdrop,htake]
    obtain ⟨front,node,rfl⟩ : ∃ front last,nodes=front++[last] :=
      ⟨_,_,(dropLast_concat_getLast h.some).symm⟩
    rw [reverse_concat] at hfull ⊢
    have hnode := h.plain node (mem_append_right _ mem_cons_self)
    obtain ⟨xs,x,hxs⟩ : ∃ xs x,node.toStrings=xs++[x] :=
      ⟨_,_,(dropLast_concat_getLast (hfull node mem_cons_self)).symm⟩
    have hcount : node.numElements-1=xs.length := by
      rw [hnode.numElements,hxs,length_append,length_singleton]
      omega
    have hlen : xs.length+1 ≤ node.toStrings.length := by
      rw [hxs,length_append,length_singleton]
    obtain ⟨node',herase,hplain,htexts⟩ := hnode.eraseRange Nat.one_pos hlen
    have hinit : node'.toStrings=xs := by
      rw [htexts,hxs,take_left,drop_eq_nil_of_le (by simp),append_nil]
    have hget : node.get xs.length=some (elementOf x) := by
      rw [hnode.get,hxs,getElem?_concat_length]
      rfl
    have hvector : (ListValue.mk encoding (front++[node])).toVector=(texts front++xs)++[x] := by
      rw [toVector,flatMap_append,flatMap_singleton,hxs,← append_assoc]
      rfl
    obtain ⟨hshape,hnew⟩ := Shape.shrink front [] h
      (fun n hn => hfull n (by simpa [or_comm] using hn)) hplain
    rw [hinit,show texts []=[] from rfl,append_nil xs] at hnew
    dsimp only
    rw [hcount,hget,Listpack.eraseAt,herase,hvector,getLast?_concat,dropLast_concat]
    dsimp only [Option.getD_some]
    rw [toString_elementOf]
    split
    · rename_i hlast
      rw [if_pos hlast,append_nil] at hshape hnew
      rw [nil_append,reverse_reverse]
      exact ⟨(maybeConvert_keeps hshape hnew).1,rfl,(maybeConvert_keeps hshape hnew).2⟩
    · rename_i hlast
      rw [if_neg hlast] at hshape hnew
      rw [nil_append,reverse_cons,reverse_reverse]
      exact ⟨(maybeConvert_keeps hshape hnew).1,rfl,(maybeConvert_keeps hshape hnew).2⟩

theorem setNodes_spec (hsize : value.length < 2^32) (hplain : ∀ node∈nodes,node.Plain) {index : ℕ}
    (hindex : index < (texts nodes).length) :
    ∃ before node node' after,nodes=before++node::after ∧
      setNodes value nodes index=some (before++node'::after) ∧ node'.Plain ∧ node'.toStrings≠[] ∧
      texts (before++node'::after)=(texts nodes).set index value := by
  induction nodes generalizing index with
  | nil => exact absurd hindex (Nat.not_lt_zero _)
  | cons node rest ih =>
    have hnode := hplain node mem_cons_self
    have hrest : ∀ n∈rest,n.Plain := fun n hn => hplain n (mem_cons_of_mem _ hn)
    have htexts : ∀ n ns,texts (n::ns)=n.toStrings++texts ns := fun _ _ => rfl
    rw [htexts,length_append] at hindex
    rw [setNodes,hnode.numElements,htexts]
    by_cases hlt : index < node.toStrings.length
    · obtain ⟨node',hreplace,hplain',htexts'⟩ := hnode.replaceAt hsize hlt
      refine ⟨[],node,node',rest,rfl,by rw [if_pos hlt,hreplace]; rfl,hplain',?_,?_⟩
      · refine ne_nil_of_length_pos ?_
        rw [htexts',length_set]
        omega
      · rw [set_append_left _ _ hlt,← htexts']
        rfl
    · have hlt' : index-node.toStrings.length < (texts rest).length := by omega
      obtain ⟨before,old,new,after,rfl,hset,hplain',hsome,htexts'⟩ := ih hrest hlt'
      refine ⟨node::before,old,new,after,rfl,by rw [if_neg hlt,hset]; rfl,hplain',hsome,?_⟩
      rw [set_append_right _ _ (by omega),← htexts']
      rfl

theorem Ok.resolveIndex (h : l.Ok) {index : ℤ} {resolved : ℕ}
    (hresolve : l.resolveIndex index=some resolved) : resolved < l.toVector.length := by
  have hsize : l.size=l.toVector.length := Shape.size h.plain
  rw [ListValue.resolveIndex,hsize] at hresolve
  simp only [Bool.or_eq_true,decide_eq_true_eq,ite_eq_iff,reduceCtorEq,and_false,false_or,
    Option.some.injEq] at hresolve
  omega

theorem Ok.set (h : l.Ok) (hsize : value.length < 2^32) (index : ℤ) :
    (l.set index value).2.Ok ∧
    match l.resolveIndex index with
    | none => l.set index value=(false,l)
    | some i => (l.set index value).1=true ∧
        (l.set index value).2.toVector=l.toVector.set i value := by
  rw [ListValue.set]
  cases hresolve : l.resolveIndex index with
  | none => exact ⟨h,rfl⟩
  | some i =>
    obtain ⟨before,node,node',after,hsplit,hset,hplain,hsome,htexts⟩ :=
      setNodes_spec hsize h.plain (h.resolveIndex hresolve)
    have hmem : ∀ n∈before++node'::after,n=node' ∨
        n∈before++node::after ∧ 1 < (before++node::after).length := by
      intro n hn
      rw [length_append,length_cons]
      rcases mem_append.mp hn with hn | hn
      · have hpos := length_pos_of_mem hn
        exact .inr ⟨mem_append_left _ hn,by omega⟩
      · rcases mem_cons.mp hn with rfl | hn
        · exact .inl rfl
        · have hpos := length_pos_of_mem hn
          exact .inr ⟨mem_append_right _ (mem_cons_of_mem _ hn),by omega⟩
    dsimp only
    rw [hset]
    refine ⟨shape_of_full (fun n hn => ?_) (by simp) fun n hn => ?_,rfl,htexts⟩
    · rcases hmem n hn with rfl | ⟨hn,-⟩
      · exact hplain
      · exact h.plain n (by rw [hsplit]; exact hn)
    · rcases hmem n hn with rfl | ⟨hn,hlen⟩
      · exact hsome
      · exact h.full_of_two (by rw [hsplit]; exact hlen) (by rw [hsplit]; exact hn)

theorem removeLoop_sublist (value : Bytes) (limit : ℕ) (items : List Bytes) :
    (removeLoop value limit items).1.Sublist items := by
  induction items generalizing limit with
  | nil => exact .slnil
  | cons item items ih =>
    cases limit with
    | zero => exact .refl _
    | succ limit =>
      rw [removeLoop]
      split
      · exact (ih limit).cons _
      · exact (ih (limit+1)).cons_cons _

theorem removeItems_sublist (value : Bytes) (count : ℤ) (items : List Bytes) :
    (removeItems value count items).1.Sublist items := by
  rw [removeItems]
  split
  · exact removeLoop_sublist _ _ _
  · exact reverse_sublist.mp (by rw [reverse_reverse]; exact removeLoop_sublist _ _ _)

theorem Ok.removeValue (h : l.Ok) (value : Bytes) (count : ℤ) :
    (l.removeValue value count).2.Ok := by
  rw [ListValue.removeValue]
  dsimp only
  split
  · refine (rebuildFrom_spec fun x hx => Shape.text_lt h ?_).1
    exact (removeItems_sublist value count l.toVector).subset hx
  · exact h

theorem range_subset (l : ListValue) (start stop : ℤ) : l.range start stop ⊆ l.toVector := by
  rw [range]
  extract_lets start₁ stop₁ start₂ stop₂
  split
  · exact nil_subset _
  · split
    · exact nil_subset _
    · exact fun x hx => mem_of_mem_take (mem_of_mem_drop hx)

theorem Ok.trim (h : l.Ok) (start stop : ℤ) :
    (l.trim start stop).Ok ∧ (l.trim start stop).toVector=l.range start stop :=
  rebuildFrom_spec fun _ hx => Shape.text_lt h (range_subset l start stop hx)

end ListValue

/-! ## Sequences of list operations -/

open Refinement List

section Sequences

variable {A : Type}

def positionOf (length : ℕ) (index : ℤ) : Option ℕ :=
  if 0 ≤ index then if index < length then some index.toNat else none
  else if 0 ≤ index+length then some (index+length).toNat else none

def fromFront (length : ℕ) (index : ℤ) : ℤ := if index < 0 then index+length else index

def between (xs : List A) (start stop : ℤ) : List A :=
  (xs.zipIdx.filter fun x => decide (fromFront xs.length start ≤ x.2 ∧
    x.2 ≤ fromFront xs.length stop)).map Prod.fst

theorem filter_zipIdx (xs : List A) (a b : ℤ) : ∀ k : ℕ,
    ((xs.zipIdx k).filter fun x => decide (a ≤ x.2 ∧ x.2 ≤ b)).map Prod.fst=
      (xs.take (b+1-k).toNat).drop (a-k).toNat := by
  induction xs with
  | nil => simp
  | cons x xs ih =>
    intro k
    have hrest := ih (k+1)
    push_cast at hrest
    rw [zipIdx_cons,filter_cons]
    by_cases hin : a ≤ k ∧ k ≤ b
    · rw [if_pos (by simpa using hin),map_cons,hrest]
      have hstart : (a-k).toNat=0 := by omega
      have hstart' : (a-(k+1)).toNat=0 := by omega
      have hstop : (b+1-k).toNat=(b+1-(k+1)).toNat+1 := by omega
      rw [hstart,hstart',hstop,take_succ_cons,drop_zero,drop_zero]
    · rw [if_neg (by simpa using hin),hrest]
      by_cases hbelow : k < a
      · have hstart : (a-k).toNat=(a-(k+1)).toNat+1 := by omega
        cases hstop : (b+1-k).toNat with
        | zero =>
          have hstop' : (b+1-(k+1)).toNat=0 := by omega
          rw [hstop',take_zero,take_zero,drop_nil,drop_nil]
        | succ n =>
          have hstop' : (b+1-(k+1)).toNat=n := by omega
          rw [hstart,hstop',take_succ_cons,drop_succ_cons]
      · have hstop : (b+1-k).toNat=0 := by omega
        have hstop' : (b+1-(k+1)).toNat=0 := by omega
        rw [hstop,hstop',take_zero,take_zero,drop_nil,drop_nil]

theorem between_eq (xs : List A) (start stop : ℤ) :
    between xs start stop=(xs.take (fromFront xs.length stop+1).toNat).drop
      (fromFront xs.length start).toNat := by
  have h := filter_zipIdx xs (fromFront xs.length start) (fromFront xs.length stop) 0
  simpa [between] using h

variable [BEq A]

/-- The sequence without as many occurrences of a value as the count says, from the side of its
sign, or without all of them. -/
def without (value : A) (count : ℤ) (xs : List A) : List A :=
  if count=0 then xs.filter (·!=value)
  else if 0 < count then (List.erase · value)^[count.natAbs] xs
  else ((List.erase · value)^[count.natAbs] xs.reverse).reverse

def removedCount (value : A) (count : ℤ) (xs : List A) : ℕ :=
  if count=0 then xs.count value else min count.natAbs (xs.count value)

theorem iterate_erase_cons [LawfulBEq A] {value x : A} (hx : x≠value) (n : ℕ) (xs : List A) :
    (List.erase · value)^[n] (x::xs)=x::(List.erase · value)^[n] xs := by
  induction n generalizing xs with
  | zero => rfl
  | succ n ih =>
    rw [Function.iterate_succ_apply,Function.iterate_succ_apply,erase_cons_tail (by simpa using hx),
      ih]

theorem iterate_erase_of_not_mem [LawfulBEq A] {value : A} {xs : List A} (h : value∉xs) (n : ℕ) :
    (List.erase · value)^[n] xs=xs := by
  induction n with
  | zero => rfl
  | succ n ih => rw [Function.iterate_succ_apply,erase_of_not_mem h,ih]

theorem without_eq_self [LawfulBEq A] {value : A} {count : ℤ} {xs : List A}
    (h : removedCount value count xs=0) : without value count xs=xs := by
  unfold removedCount at h
  have habsent : value∉xs := by
    rw [←count_eq_zero]
    split at h <;> omega
  have hreverse : value∉xs.reverse := fun hmem => habsent (mem_reverse.mp hmem)
  unfold without
  split
  · refine filter_eq_self.mpr fun x hx => bne_iff_ne.mpr fun he => ?_
    exact habsent (he ▸ hx)
  split
  · exact iterate_erase_of_not_mem habsent _
  · rw [iterate_erase_of_not_mem hreverse,reverse_reverse]

end Sequences

namespace ListValue

theorem removeLoop_eq (value : Bytes) (limit : ℕ) (items : List Bytes) :
    removeLoop value limit items=
      ((List.erase · value)^[limit] items,min limit (items.count value)) := by
  fun_induction removeLoop value limit items with
  | case1 limit => simp [iterate_erase_of_not_mem]
  | case2 items => simp
  | case3 limit items left removed hrest ih =>
    rw [hrest] at ih
    obtain ⟨rfl,rfl⟩ := Prod.mk.inj ih
    rw [Function.iterate_succ_apply,erase_cons_head,count_cons_self,Nat.succ_min_succ]
  | case4 limit item items hne left removed hrest ih =>
    rw [hrest] at ih
    obtain ⟨rfl,rfl⟩ := Prod.mk.inj ih
    rw [iterate_erase_cons hne,count_cons_of_ne hne]

theorem iterate_erase_length (value : Bytes) (items : List Bytes) : ∀ n,items.length ≤ n →
    (List.erase · value)^[n] items=items.filter (·!=value) := by
  induction items with
  | nil => exact fun n _ => iterate_erase_of_not_mem not_mem_nil n
  | cons item items ih =>
    intro n hn
    rw [length_cons] at hn
    by_cases hitem : item=value
    · subst hitem
      obtain ⟨k,rfl⟩ : ∃ k,n=k+1 := ⟨n-1,by omega⟩
      rw [Function.iterate_succ_apply,erase_cons_head,ih k (by omega)]
      simp
    · rw [iterate_erase_cons hitem,ih n (by omega),filter_cons_of_pos (by simpa using hitem)]

theorem removeItems_eq (value : Bytes) (count : ℤ) (items : List Bytes) :
    removeItems value count items=(without value count items,removedCount value count items) := by
  unfold removeItems without removedCount
  simp only [removeLoop_eq]
  by_cases hzero : count=0
  · subst hzero
    simp only [if_true,le_refl]
    rw [iterate_erase_length value items _ (Nat.le_refl _),min_eq_right count_le_length]
  · simp only [if_neg hzero,count_reverse]
    by_cases hpos : 0 < count
    · rw [if_pos (by omega),if_pos hpos]
    · rw [if_neg (by omega),if_neg hpos]

theorem resolveIndex_eq (l : ListValue) (index : ℤ) :
    l.resolveIndex index=positionOf l.size index := by
  unfold resolveIndex positionOf
  simp only [Bool.or_eq_true,decide_eq_true_eq]
  generalize (l.size : ℤ)=n
  repeat' split
  all_goals first | rfl | omega

theorem positionOf_lt {length : ℕ} {index : ℤ} {p : ℕ} (h : positionOf length index=some p) :
    p < length := by
  unfold positionOf at h
  split at h
  · split at h
    · cases h
      omega
    · cases h
  · split at h
    · cases h
      omega
    · cases h

section Queries

variable {l : ListValue}

theorem Ok.size (h : l.Ok) : l.size=l.toVector.length := Shape.size h.plain

theorem atNodes_eq {nodes : List Listpack} (hplain : ∀ node∈nodes,node.Plain) : ∀ i,
    atNodes nodes i=(texts nodes)[i]? := by
  induction nodes with
  | nil => exact fun _ => rfl
  | cons node rest ih =>
    intro i
    have hnode := hplain node mem_cons_self
    have hrest := ih fun n hn => hplain n (mem_cons_of_mem node hn)
    rw [atNodes,hnode.numElements]
    change _=(node.toStrings++texts rest)[i]?
    split
    · rename_i hi
      rw [hnode.get,getElem?_append_left hi,Option.map_map]
      cases node.toStrings[i]? with
      | none => rfl
      | some text => exact congrArg some (toString_elementOf text)
    · rename_i hi
      rw [hrest,getElem?_append_right (by omega)]

theorem Ok.at_ (h : l.Ok) (index : ℤ) :
    l.at_ index=(positionOf l.toVector.length index).bind fun p => l.toVector[p]? := by
  unfold ListValue.at_
  rw [resolveIndex_eq,h.size]
  cases positionOf l.toVector.length index with
  | none => rfl
  | some p => exact atNodes_eq h.plain p

theorem clamped_segment (xs : List Bytes) (hsome : xs≠[]) {a b a' b' : ℤ}
    (ha : a'=if a < 0 then 0 else a) (hb : b'=if xs.length ≤ b then (xs.length : ℤ)-1 else b) :
    (if (decide (b' < a') || decide ((xs.length : ℤ) ≤ a'))=true then []
      else (xs.take (b'.toNat+1)).drop a'.toNat)=(xs.take (b+1).toNat).drop a.toNat := by
  have hpos : 0 < xs.length := length_pos_of_ne_nil hsome
  have hstart : a'.toNat=a.toNat := by
    rw [ha]
    split <;> omega
  split
  · rename_i hempty
    simp only [Bool.or_eq_true,decide_eq_true_eq] at hempty
    rw [eq_comm,drop_eq_nil_iff,length_take]
    split at hb <;> omega
  · rename_i hfull
    simp only [Bool.or_eq_true,decide_eq_true_eq,not_or,not_lt,not_le] at hfull
    rw [hstart]
    by_cases hbeyond : (xs.length : ℤ) ≤ b
    · rw [if_pos hbeyond] at hb
      rw [take_of_length_le (by omega),take_of_length_le (by omega)]
    · rw [if_neg hbeyond] at hb
      have hstop : b'.toNat+1=(b+1).toNat := by
        split at ha <;> omega
      rw [hstop]

theorem Ok.range (h : l.Ok) (start stop : ℤ) : l.range start stop=between l.toVector start stop := by
  rw [between_eq]
  unfold ListValue.range fromFront
  rw [h.size]
  dsimp only
  by_cases hnil : l.toVector=[]
  · rw [hnil]
    simp
  · rw [if_neg fun hzero => hnil (eq_nil_of_length_eq_zero (by omega))]
    exact clamped_segment l.toVector hnil rfl rfl

theorem findIn_eq_idxOf? (value : Bytes) (xs : List Bytes) : ∀ k,
    Listpack.findIn (elementOf value) 0 1 (xs.map elementOf) k=(xs.idxOf? value).map (k+·) := by
  induction xs with
  | nil => exact fun _ => rfl
  | cons x xs ih =>
    intro k
    rw [map_cons,Listpack.findIn,ih,idxOf?_cons]
    by_cases hx : x=value
    · simp [hx,Nat.mod_one]
    · have helement : elementOf x≠elementOf value := fun he => hx (elementOf_injective he)
      rw [if_neg (by simp [helement]),if_neg (by simpa using hx),Option.map_map]
      refine congrArg (Option.map · _) (funext fun i => ?_)
      simp only [Function.comp_apply]
      omega

theorem find_eq_idxOf? {node : Listpack} (h : node.Plain) (value : Bytes) :
    node.find value 0 1=node.toStrings.idxOf? value := by
  rw [h.find,findIn_eq_idxOf?]
  simp

theorem indexOfNodes_eq (value : Bytes) {nodes : List Listpack}
    (hplain : ∀ node∈nodes,node.Plain) : ∀ k,
    indexOfNodes value nodes k=((texts nodes).idxOf? value).map (k+·) := by
  induction nodes with
  | nil => exact fun _ => rfl
  | cons node rest ih =>
    intro k
    have hnode := hplain node mem_cons_self
    have hrest := ih fun n hn => hplain n (mem_cons_of_mem node hn)
    rw [indexOfNodes,find_eq_idxOf? hnode,hrest,hnode.numElements]
    change _=((node.toStrings++texts rest).idxOf? value).map (k+·)
    unfold List.idxOf?
    rw [findIdx?_append]
    cases node.toStrings.findIdx? (·==value) with
    | some found => rfl
    | none =>
      simp only [Option.none_or,Option.map_map]
      refine congrArg (Option.map · _) (funext fun i => ?_)
      simp only [Function.comp_apply]
      omega

theorem Ok.indexOf (h : l.Ok) (value : Bytes) : l.indexOf value=l.toVector.idxOf? value := by
  unfold ListValue.indexOf
  rw [indexOfNodes_eq value h.plain]
  simp only [Nat.zero_add,Option.map_id']
  rfl

end Queries

inductive Operation where
  | pushFront (value : Bytes)
  | pushBack (value : Bytes)
  | popFront
  | popBack
  | set (index : ℤ) (value : Bytes)
  | removeValue (value : Bytes) (count : ℤ)
  | trim (start stop : ℤ)
  | copy

inductive Outcome where
  | done
  | popped (value : Option Bytes)
  | assigned (found : Bool)
  | removed (count : ℕ)

def Operation.step : Operation → ListValue → Outcome×ListValue
  | .pushFront value,l => (.done,l.pushFront value)
  | .pushBack value,l => (.done,l.pushBack value)
  | .popFront,l => (.popped l.popFront.1,l.popFront.2)
  | .popBack,l => (.popped l.popBack.1,l.popBack.2)
  | .set index value,l => (.assigned (l.set index value).1,(l.set index value).2)
  | .removeValue value count,l =>
    (.removed (l.removeValue value count).1,(l.removeValue value count).2)
  | .trim start stop,l => (.done,l.trim start stop)
  | .copy,l => (.done,l)

def assign (index : ℤ) (value : Bytes) (xs : List Bytes) : Outcome×List Bytes :=
  match positionOf xs.length index with
  | none => (.assigned false,xs)
  | some p => (.assigned true,xs.set p value)

def Operation.spec : Operation → List Bytes → Outcome×List Bytes
  | .pushFront value,xs => (.done,value::xs)
  | .pushBack value,xs => (.done,xs++[value])
  | .popFront,xs => (.popped xs.head?,xs.tail)
  | .popBack,xs => (.popped xs.getLast?,xs.dropLast)
  | .set index value,xs => assign index value xs
  | .removeValue value count,xs =>
    (.removed (removedCount value count xs),without value count xs)
  | .trim start stop,xs => (.done,between xs start stop)
  | .copy,xs => (.done,xs)

/-- Everything that can be asked of a list is answered as by the sequence, and only the node of an
empty list is empty. -/
structure Shows (l : ListValue) (xs : List Bytes) : Prop where
  size : l.size=xs.length
  at_ : ∀ index,l.at_ index=(positionOf xs.length index).bind fun p => xs[p]?
  range : ∀ start stop,l.range start stop=between xs start stop
  indexOf : ∀ value,l.indexOf value=xs.idxOf? value
  full : ∀ node∈l.nodes,node.numElements=0 → xs=[]

def design : Design Operation ListValue (List Bytes) Outcome where
  step := Operation.step
  spec := Operation.spec
  Sees := Shows

/-- The element that an operation stores has less than 2^32 bytes. -/
def Operation.Fits : Operation → ListValue → List Bytes → Prop
  | .pushFront value,_,_ => value.length < 2^32
  | .pushBack value,_,_ => value.length < 2^32
  | .set index value,_,xs => (positionOf xs.length index).isSome → value.length < 2^32
  | _,_,_ => True

structure Stands (l : ListValue) (xs : List Bytes) : Prop where
  ok : l.Ok
  items : l.toVector=xs

section Stands

variable {l : ListValue} {xs : List Bytes}

theorem Stands.shows (h : Stands l xs) : Shows l xs := by
  obtain ⟨hok,rfl⟩ := h
  refine ⟨hok.size,hok.at_,hok.range,hok.indexOf,fun node hnode hzero => ?_⟩
  rw [(hok.plain node hnode).numElements] at hzero
  rcases hok.full node hnode with hfull | halone
  · exact absurd (eq_nil_of_length_eq_zero hzero) hfull
  · unfold toVector
    rw [halone,flatMap_singleton]
    exact eq_nil_of_length_eq_zero hzero

theorem Stands.set (h : Stands l xs) {index : ℤ} {value : Bytes}
    (hfits : (positionOf xs.length index).isSome → value.length < 2^32) :
    Outcome.assigned (l.set index value).1=(assign index value xs).1 ∧
      Stands (l.set index value).2 (assign index value xs).2 := by
  obtain ⟨hok,rfl⟩ := h
  have hresolve := resolveIndex_eq l index
  rw [hok.size] at hresolve
  unfold assign
  cases hposition : positionOf l.toVector.length index with
  | none =>
    rw [hposition] at hresolve
    have hset : l.set index value=(false,l) := by
      unfold ListValue.set
      rw [hresolve]
    rw [hset]
    exact ⟨rfl,hok,rfl⟩
  | some p =>
    rw [hposition] at hresolve
    obtain ⟨hok',hset⟩ := hok.set (hfits (by rw [hposition]; rfl)) index
    rw [hresolve] at hset
    exact ⟨congrArg Outcome.assigned hset.1,hok',hset.2⟩

theorem Stands.removeValue (h : Stands l xs) (value : Bytes) (count : ℤ) :
    (l.removeValue value count).1=removedCount value count xs ∧
      Stands (l.removeValue value count).2 (without value count xs) := by
  obtain ⟨hok,rfl⟩ := h
  have hsublist := removeItems_sublist value count l.toVector
  unfold ListValue.removeValue
  rw [removeItems_eq] at hsublist ⊢
  dsimp only at hsublist ⊢
  split
  · obtain ⟨hok',hitems⟩ := rebuildFrom_spec fun x hx =>
      Shape.text_lt hok (hsublist.subset hx)
    exact ⟨rfl,hok',hitems⟩
  · rename_i hnone
    exact ⟨rfl,hok,(without_eq_self (Nat.eq_zero_of_not_pos hnone)).symm⟩

theorem stands_empty : Stands empty [] := ⟨empty_ok,by decide⟩

end Stands

theorem simulates : design.Simulates Stands Operation.Fits where
  sees h := h.shows
  result {op l xs} h hfits := by
    cases op with
    | pushFront value => rfl
    | pushBack value => rfl
    | popFront => exact congrArg Outcome.popped (h.items ▸ h.ok.popFront.2.1)
    | popBack => exact congrArg Outcome.popped (h.items ▸ h.ok.popBack.2.1)
    | set index value => exact (h.set hfits).1
    | removeValue value count => exact congrArg Outcome.removed (h.removeValue value count).1
    | trim start stop => rfl
    | copy => rfl
  next {op l xs} h hfits := by
    cases op with
    | set index value => exact (h.set hfits).2
    | removeValue value count => exact (h.removeValue value count).2
    | copy => exact h
    | pushFront value =>
      obtain ⟨hok,rfl⟩ := h
      exact ⟨(hok.pushFront hfits).1,(hok.pushFront hfits).2⟩
    | pushBack value =>
      obtain ⟨hok,rfl⟩ := h
      exact ⟨(hok.pushBack hfits).1,(hok.pushBack hfits).2⟩
    | popFront =>
      obtain ⟨hok,rfl⟩ := h
      exact ⟨hok.popFront.1,hok.popFront.2.2⟩
    | popBack =>
      obtain ⟨hok,rfl⟩ := h
      exact ⟨hok.popBack.1,hok.popBack.2.2⟩
    | trim start stop =>
      obtain ⟨hok,rfl⟩ := h
      exact ⟨(hok.trim start stop).1,(hok.trim start stop).2.trans (hok.range start stop)⟩

theorem at_ne (l : ListValue) (index : ℤ) {value : Bytes} (hlong : 2^32 ≤ value.length) :
    l.at_ index≠some value := by
  have hnodes : ∀ (nodes : List Listpack) (i : ℕ),atNodes nodes i≠some value := by
    intro nodes
    induction nodes with
    | nil =>
      intro i hnone
      cases hnone
    | cons node rest ih =>
      intro i hfound
      rw [atNodes] at hfound
      split at hfound
      · obtain ⟨e,he,rfl⟩ := Option.map_eq_some_iff.mp hfound
        exact absurd (Listpack.get_toString_lt he) (Nat.not_lt.mpr hlong)
      · exact ih _ hfound
  unfold ListValue.at_
  split
  · intro hnone
    cases hnone
  · exact hnodes _ _

theorem not_shows_of_long {l : ListValue} {xs : List Bytes} {value : Bytes} (hmem : value∈xs)
    (hlong : 2^32 ≤ value.length) : ¬Shows l xs := by
  intro hshows
  obtain ⟨p,hp,hvalue⟩ := getElem_of_mem hmem
  have hread := hshows.at_ p
  have hposition : positionOf xs.length p=some p := by
    unfold positionOf
    rw [if_pos (by omega),if_pos (by omega)]
    rfl
  rw [hposition,Option.bind_some,getElem?_eq_getElem hp,hvalue] at hread
  exact at_ne l p hlong hread

theorem not_shows_of_not_fits (op : Operation) {l : ListValue} {xs : List Bytes}
    (hfits : ¬op.Fits l xs) : ¬Shows (op.step l).2 (op.spec xs).2 := by
  cases op with
  | popFront | popBack | removeValue value count | trim start stop | copy =>
    exact absurd trivial hfits
  | pushFront value => exact not_shows_of_long mem_cons_self (Nat.not_lt.mp hfits)
  | pushBack value => exact not_shows_of_long mem_concat_self (Nat.not_lt.mp hfits)
  | set index value =>
    unfold Operation.Fits at hfits
    push Not at hfits
    obtain ⟨hsome,hlong⟩ := hfits
    obtain ⟨p,hp⟩ := Option.isSome_iff_exists.mp hsome
    refine not_shows_of_long ?_ hlong
    unfold Operation.spec assign
    dsimp only
    rw [hp]
    exact mem_set (positionOf_lt hp) value

/-- **Lists**: a sequence of operations answers as it does on a sequence of byte strings exactly
when every element it comes to store is shorter than 2^32 bytes. -/
theorem list_refines_iff (ops : List Operation) :
    design.Follows ops empty [] ↔ design.Meets Operation.Fits ops empty [] :=
  simulates.follows_iff (fun _ => not_shows_of_not_fits _) ops stands_empty

/-- An element of 2^32 zero bytes. -/
theorem list_long_element_lost :
    ¬design.Follows [.pushBack (replicate (2^32) 0)] empty [] := by
  rintro ⟨-,-,hshows⟩
  refine not_shows_of_not_fits (.pushBack (replicate (2^32) 0)) (fun hshort => ?_) hshows
  have hlength : (replicate (2^32) (0 : UInt8)).length < 2^32 := hshort
  rw [length_replicate] at hlength
  exact absurd hlength (Nat.lt_irrefl _)

end ListValue

end Mnemos
