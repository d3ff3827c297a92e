import Mnemos.ListValue
import Mnemos.ListpackRuns

/-!
# Encoding and node budget of lists

A node takes seven bytes and those of its entries, and the estimate of the code
is never below the size of an entry.
-/

open List

namespace Mnemos

namespace Listpack

def Written (raw : Bytes) (e : Element) : Prop :=
  ∃ text,raw=buildEntry text ∧ e=elementOf text ∧ text.length < 2^32

theorem Written.isEntry {raw : Bytes} {e : Element} (h : Written raw e) : IsEntry raw e := by
  obtain ⟨text,rfl,rfl,hsize⟩ := h
  exact isEntry_buildEntry hsize

def nodeBytes (texts : List Bytes) : ℕ := 7+(texts.map fun text => (buildEntry text).length).sum

/-- Every entry of the node is the one that the code builds for its text. -/
def Tight (node : Listpack) : Prop := HoldsBy Written node (node.toStrings.map elementOf)

theorem HoldsBy.tight {node : Listpack} {texts : List Bytes}
    (h : HoldsBy Written node (texts.map elementOf)) : Tight node ∧ node.toStrings=texts := by
  have htexts := (Holds.plain (h.holds Written.isEntry)).2
  exact ⟨by rw [Tight,htexts]; exact h,htexts⟩

theorem buildEntry_length (value : Bytes) : (buildEntry value).length ≤ value.length+11 := by
  unfold buildEntry withBacklen
  rw [length_append]
  cases stringToInt64 value with
  | some n =>
    have hpayload : (encodeInteger n).length ≤ 9 := by
      unfold encodeInteger
      split_ifs <;> simp [leBytes_length]
    have hfield : (encodeBacklen (encodeInteger n).length).length=1 := by
      rw [encodeBacklen,if_pos (by omega)]
      rfl
    dsimp only
    omega
  | none =>
    have hpayload : (encodeString value).length ≤ value.length+5 := by
      unfold encodeString
      dsimp only
      split_ifs <;> simp [leBytes_length]
      omega
    have hfield := encodeBacklen_length (encodeString value).length
    dsimp only
    omega

section Tight

variable {node : Listpack} {value : Bytes}

theorem Tight.plain (h : Tight node) : Plain node := h.holds Written.isEntry

theorem Tight.totalBytes (h : Tight node) : node.totalBytes=nodeBytes node.toStrings := by
  obtain ⟨stored,raws,hlayout,hentries,-,-⟩ := h
  have hraws : raws=node.toStrings.map buildEntry := by
    clear hlayout
    generalize node.toStrings=texts at hentries
    induction texts generalizing raws with
    | nil => exact forall₂_nil_right_iff.mp hentries
    | cons text texts ih =>
      obtain ⟨raw,rest,⟨text',rfl,hsame,-⟩,hrest,rfl⟩ := forall₂_cons_right_iff.mp hentries
      rw [map_cons,ih rest hrest,elementOf_injective hsame]
  rw [nodeBytes,Listpack.totalBytes]
  nth_rewrite 1 [hlayout]
  rw [layout_length,hraws,length_flatten,map_map]
  rfl

theorem tight_empty : Tight empty ∧ empty.toStrings=[] :=
  HoldsBy.tight (show HoldsBy Written empty (List.map elementOf []) from
    ⟨0,[],rfl,.nil,Nat.zero_le _,fun _ => rfl⟩)

theorem Tight.append (h : Tight node) (hsize : value.length < 2^32) :
    Tight (node.append value) ∧ (node.append value).toStrings=node.toStrings++[value] := by
  refine HoldsBy.tight ?_
  rw [map_append]
  exact HoldsBy.append_entry h ⟨value,rfl,rfl,hsize⟩

theorem Tight.insertFront (h : Tight node) (hsize : value.length < 2^32) :
    Tight (ListValue.insertFront node value) ∧
      (ListValue.insertFront node value).toStrings=value::node.toStrings := by
  obtain ⟨node',hinsert,hholds⟩ := HoldsBy.insertAt Written.isEntry h ⟨value,rfl,rfl,hsize⟩
    (Nat.zero_le _)
  rw [ListValue.insertFront,hinsert]
  refine HoldsBy.tight ?_
  rw [map_cons]
  exact hholds

theorem Tight.replaceAt (h : Tight node) (hsize : value.length < 2^32) {index : ℕ}
    (hindex : index < node.toStrings.length) :
    ∃ node',node.replaceAt index value=some node' ∧ Tight node' ∧
      node'.toStrings=node.toStrings.set index value := by
  obtain ⟨node',hreplace,hholds⟩ := HoldsBy.replaceAt Written.isEntry h ⟨value,rfl,rfl,hsize⟩
    (by rwa [length_map])
  refine ⟨node',hreplace,HoldsBy.tight ?_⟩
  rw [map_set]
  exact hholds

theorem Tight.eraseAt (h : Tight node) (index : ℕ) :
    Tight ((node.eraseAt index).getD node) ∧
      ((node.eraseAt index).getD node).toStrings.Sublist node.toStrings := by
  rw [Listpack.eraseAt]
  by_cases hindex : index+1 ≤ node.toStrings.length
  · obtain ⟨node',herase,hholds⟩ := HoldsBy.eraseRange Written.isEntry h Nat.one_pos
      (by rwa [length_map])
    rw [←map_take,←map_drop,←map_append] at hholds
    obtain ⟨htight,htexts⟩ := hholds.tight
    rw [herase,Option.getD_some,htexts,←eraseIdx_eq_take_drop_succ]
    exact ⟨htight,eraseIdx_sublist _ _⟩
  · rw [Holds.eraseRange_none h.plain Nat.one_pos (by rw [length_map]; omega)]
    exact ⟨h,Sublist.refl _⟩

end Tight

/-- A tight node within the budget, unless it holds a single element. -/
structure Sound (node : Listpack) : Prop where
  tight : Tight node
  budget : 1 < node.toStrings.length → nodeBytes node.toStrings ≤ 8192

section Sound

variable {node node' : Listpack} {value : Bytes}

theorem sound_empty : Sound empty :=
  ⟨tight_empty.1,fun hlong => by rw [tight_empty.2] at hlong; cases hlong⟩

theorem Sound.push (h : Sound node) (htight : Tight node')
    (htexts : node'.toStrings.Perm (value::node.toStrings))
    (hroom : ListValue.wouldOverflowNode node value=false) : Sound node' := by
  refine ⟨htight,fun hlong => ?_⟩
  have hbytes : nodeBytes node'.toStrings=nodeBytes node.toStrings+(buildEntry value).length := by
    rw [nodeBytes,(htexts.map _).sum_eq,nodeBytes,map_cons,sum_cons]
    omega
  have hentry := buildEntry_length value
  rw [htexts.length_eq,length_cons] at hlong
  rw [ListValue.wouldOverflowNode,h.tight.plain.numElements,h.tight.totalBytes] at hroom
  simp only [Bool.and_eq_false_iff,decide_eq_false_iff_not,not_lt] at hroom
  have hlimit : defaultLimits.listMaxListpackBytes=8192 := rfl
  omega

theorem sound_single (htight : Tight node) (htexts : node.toStrings=[value]) : Sound node :=
  ⟨htight,fun hlong => by rw [htexts] at hlong; exact absurd hlong (lt_irrefl 1)⟩

theorem Sound.eraseAt (h : Sound node) (index : ℕ) : Sound ((node.eraseAt index).getD node) := by
  obtain ⟨htight,hsublist⟩ := h.tight.eraseAt index
  refine ⟨htight,fun hlong => ?_⟩
  have hbytes := (hsublist.map fun text => (buildEntry text).length).sum_le_sum
    fun _ _ => Nat.zero_le _
  have hbudget := h.budget (hlong.trans_le hsublist.length_le)
  unfold nodeBytes at hbudget ⊢
  omega

end Sound

end Listpack

namespace ListValue

open Listpack Refinement

/-- The encoding is `listpack` for one node within the budget and `quicklist` otherwise, and nodes
of several elements are within it. -/
structure Budgeted (l : ListValue) : Prop where
  packed : l.encoding=.listPack ↔ ∃ node,l.nodes=[node] ∧ node.totalBytes ≤ 8192
  other : l.encoding≠.listPack → l.encoding=.quickList
  budget : ∀ node∈l.nodes,1 < node.numElements → node.totalBytes ≤ 8192

/-- The invariant: sound nodes and the encoding that `maybeConvert` gives them. -/
structure Ready (l : ListValue) : Prop where
  sound : ∀ node∈l.nodes,Sound node
  told : maybeConvert l.nodes=l

theorem maybeConvert_encoding (nodes : List Listpack) :
    ((maybeConvert nodes).encoding=.listPack ↔ ∃ node,nodes=[node] ∧ node.totalBytes ≤ 8192) ∧
      ((maybeConvert nodes).encoding≠.listPack → (maybeConvert nodes).encoding=.quickList) := by
  unfold maybeConvert
  split
  · rename_i node
    have hlimit : defaultLimits.listMaxListpackBytes=8192 := rfl
    rw [hlimit]
    split
    · rename_i hsmall
      exact ⟨⟨fun _ => ⟨node,rfl,hsmall⟩,fun _ => rfl⟩,fun hne => absurd rfl hne⟩
    · rename_i hlarge
      refine ⟨⟨nofun,?_⟩,fun _ => rfl⟩
      rintro ⟨node',hsame,hsmall⟩
      cases hsame
      exact absurd hsmall hlarge
  · rename_i hmany
    refine ⟨⟨nofun,?_⟩,fun _ => rfl⟩
    rintro ⟨node,hsame,-⟩
    exact absurd hsame (hmany node)

theorem Ready.budgeted {l : ListValue} (h : l.Ready) : l.Budgeted := by
  obtain ⟨hpacked,hother⟩ := maybeConvert_encoding l.nodes
  rw [h.told] at hpacked hother
  refine ⟨hpacked,hother,fun node hnode hlong => ?_⟩
  have hsound := h.sound node hnode
  rw [hsound.tight.plain.numElements] at hlong
  rw [hsound.tight.totalBytes]
  exact hsound.budget hlong

theorem ready_maybeConvert {nodes : List Listpack} (h : ∀ node∈nodes,Sound node) :
    (maybeConvert nodes).Ready := by
  refine ⟨?_,?_⟩
  · rw [maybeConvert_nodes]
    exact h
  · rw [maybeConvert_nodes]

section Steps

variable {nodes : List Listpack} {value : Bytes}

theorem sound_append_empty (hsize : value.length < 2^32) : Sound (Listpack.empty.append value) := by
  obtain ⟨htight,htexts⟩ := tight_empty.1.append hsize
  rw [tight_empty.2,nil_append] at htexts
  exact sound_single htight htexts

theorem sound_insertFront_empty (hsize : value.length < 2^32) :
    Sound (insertFront Listpack.empty value) := by
  obtain ⟨htight,htexts⟩ := tight_empty.1.insertFront hsize
  rw [tight_empty.2] at htexts
  exact sound_single htight htexts

theorem sound_appendTo (h : ∀ node∈nodes,Sound node) (hsize : value.length < 2^32) :
    ∀ node∈appendTo nodes value,Sound node := by
  rw [appendTo]
  split
  · exact forall_mem_singleton.mpr (sound_append_empty hsize)
  · rename_i last hlast
    have hmem := mem_of_getLast? hlast
    split
    · exact forall_mem_append.mpr
        ⟨h,forall_mem_singleton.mpr (sound_append_empty hsize)⟩
    · rename_i hroom
      obtain ⟨htight,htexts⟩ := (h last hmem).tight.append hsize
      refine forall_mem_append.mpr ⟨fun node hnode => h node (mem_of_mem_dropLast hnode),
        forall_mem_singleton.mpr ?_⟩
      refine (h last hmem).push htight ?_ (Bool.eq_false_iff.mpr hroom)
      rw [htexts]
      exact perm_append_singleton value _

theorem ready_rebuildFrom {items : List Bytes} (hsize : ∀ x∈items,x.length < 2^32) :
    (rebuildFrom items).Ready := by
  have hfold : ∀ nodes : List Listpack,(∀ node∈nodes,Sound node) →
      ∀ node∈items.foldl appendTo nodes,Sound node := by
    induction items with
    | nil => exact fun _ h => h
    | cons x items ih =>
      intro nodes h
      exact ih (fun y hy => hsize y (mem_cons_of_mem x hy)) _
        (sound_appendTo h (hsize x mem_cons_self))
  exact ready_maybeConvert (hfold [.empty] (forall_mem_singleton.mpr sound_empty))

variable {l : ListValue} (h : l.Ready)

include h

theorem Ready.pushFront (hsize : value.length < 2^32) : (l.pushFront value).Ready := by
  have hsound := h.sound
  rw [ListValue.pushFront]
  split
  · exact ready_maybeConvert (forall_mem_singleton.mpr (sound_insertFront_empty hsize))
  · rename_i first rest hnodes
    rw [hnodes] at hsound
    split
    · exact ready_maybeConvert (forall_mem_cons.mpr ⟨sound_insertFront_empty hsize,hsound⟩)
    · rename_i hroom
      obtain ⟨hfirst,hrest⟩ := forall_mem_cons.mp hsound
      obtain ⟨htight,htexts⟩ := hfirst.tight.insertFront hsize
      refine ready_maybeConvert (forall_mem_cons.mpr ⟨?_,hrest⟩)
      exact hfirst.push htight (Perm.of_eq htexts) (Bool.eq_false_iff.mpr hroom)

theorem Ready.popFront : l.popFront.2.Ready := by
  have hskipped : ∀ node∈l.nodes.takeWhile (·.numElements==0),Sound node := fun node hnode =>
    h.sound node (takeWhile_subset _ hnode)
  have hleft : ∀ node∈l.nodes.dropWhile (·.numElements==0),Sound node := fun node hnode =>
    h.sound node (dropWhile_subset _ hnode)
  rw [ListValue.popFront]
  dsimp only
  split
  · exact h
  · rename_i node rest hdrop
    rw [hdrop] at hleft
    obtain ⟨hnode,hrest⟩ := forall_mem_cons.mp hleft
    split
    · exact h
    · split
      · exact ready_maybeConvert (forall_mem_append.mpr ⟨hskipped,hrest⟩)
      · exact ready_maybeConvert (forall_mem_append.mpr
          ⟨hskipped,forall_mem_cons.mpr ⟨hnode.eraseAt 0,hrest⟩⟩)

theorem Ready.popBack : l.popBack.2.Ready := by
  have hskipped : ∀ node∈l.nodes.reverse.takeWhile (·.numElements==0),Sound node :=
    fun node hnode => h.sound node (mem_reverse.mp (takeWhile_subset _ hnode))
  have hleft : ∀ node∈l.nodes.reverse.dropWhile (·.numElements==0),Sound node :=
    fun node hnode => h.sound node (mem_reverse.mp (dropWhile_subset _ hnode))
  have hreversed : ∀ ns : List Listpack,(∀ node∈ns,Sound node) → (maybeConvert ns.reverse).Ready :=
    fun ns hns => ready_maybeConvert fun node hnode => hns node (mem_reverse.mp hnode)
  rw [ListValue.popBack]
  dsimp only
  split
  · exact h
  · rename_i node rest hdrop
    rw [hdrop] at hleft
    obtain ⟨hnode,hrest⟩ := forall_mem_cons.mp hleft
    split
    · exact h
    · split
      · exact hreversed _ (forall_mem_append.mpr ⟨hskipped,hrest⟩)
      · exact hreversed _ (forall_mem_append.mpr
          ⟨hskipped,forall_mem_cons.mpr ⟨hnode.eraseAt _,hrest⟩⟩)

theorem Ready.text_lt {x : Bytes} (hx : x∈l.toVector) : x.length < 2^32 := by
  obtain ⟨node,hnode,hx⟩ := mem_flatMap.mp hx
  exact Listpack.Holds.text_lt (h.sound node hnode).tight.plain hx

theorem Ready.removeValue (value : Bytes) (count : ℤ) : (l.removeValue value count).2.Ready := by
  have hsublist := removeItems_sublist value count l.toVector
  rw [ListValue.removeValue]
  dsimp only
  split
  · exact ready_rebuildFrom fun x hx => h.text_lt (hsublist.subset hx)
  · exact h

theorem Ready.trim (start stop : ℤ) : (l.trim start stop).Ready :=
  ready_rebuildFrom fun _ hx => h.text_lt (range_subset l start stop hx)

end Steps

def chunks (l : ListValue) : List (List Bytes) := l.nodes.map Listpack.toStrings

def chunkAt : List (List Bytes) → ℕ → Option (List Bytes×ℕ)
  | [],_ => none
  | chunk::rest,i => if i < chunk.length then some (chunk,i) else chunkAt rest (i-chunk.length)

/-- A replacement leaves its chunk within the budget; a single element of a list of one stays on
the same side of it. -/
def Operation.Stays : Operation → ListValue → Prop
  | .set index value,l => ∀ p chunk i,positionOf l.size index=some p →
      chunkAt l.chunks p=some (chunk,i) →
      if 1 < chunk.length then nodeBytes (chunk.set i value) ≤ 8192
      else l.chunks.length=1 → (nodeBytes (chunk.set i value) ≤ 8192 ↔ nodeBytes chunk ≤ 8192)
  | _,_ => True

/-- The elements of the operation are shorter than 2^32 bytes. -/
def Operation.Storable : Operation → Prop
  | .pushFront value => value.length < 2^32
  | .pushBack value => value.length < 2^32
  | .set _ value => value.length < 2^32
  | _ => True

theorem setNodes_chunkAt {value : Bytes} (hsize : value.length < 2^32) {nodes : List Listpack}
    (hsound : ∀ node∈nodes,Sound node) {index : ℕ}
    (hindex : index < (texts nodes).length) :
    ∃ before node node' after i,nodes=before++node::after ∧
      setNodes value nodes index=some (before++node'::after) ∧
      chunkAt (nodes.map Listpack.toStrings) index=some (node.toStrings,i) ∧ Tight node' ∧
      node'.toStrings=node.toStrings.set i value := by
  induction nodes generalizing index with
  | nil => exact absurd hindex (Nat.not_lt_zero _)
  | cons node rest ih =>
    obtain ⟨hnode,hrest⟩ := forall_mem_cons.mp hsound
    have htexts : texts (node::rest)=node.toStrings++texts rest := rfl
    rw [htexts,length_append] at hindex
    rw [setNodes,hnode.tight.plain.numElements,map_cons,chunkAt]
    by_cases hlt : index < node.toStrings.length
    · obtain ⟨node',hreplace,htight,hset⟩ := hnode.tight.replaceAt hsize hlt
      rw [if_pos hlt,if_pos hlt,hreplace]
      exact ⟨[],node,node',rest,index,rfl,rfl,rfl,htight,hset⟩
    · have hlt' : index-node.toStrings.length < (texts rest).length := by omega
      obtain ⟨before,old,new,after,i,rfl,hset,hchunk,htight,hnew⟩ := ih hrest hlt'
      rw [if_neg hlt,if_neg hlt,hset]
      exact ⟨node::before,old,new,after,i,rfl,rfl,hchunk,htight,hnew⟩

section Set

variable {l : ListValue} {index : ℤ} {value : Bytes}

theorem Ready.set_cases (h : l.Ready) (index : ℤ) (hsize : value.length < 2^32) :
    ((l.set index value).2=l ∧ (Operation.set index value).Stays l) ∨
    ∃ before node node' after i,l.nodes=before++node::after ∧
      (l.set index value).2=⟨l.encoding,before++node'::after⟩ ∧ Tight node' ∧
      node'.toStrings=node.toStrings.set i value ∧
      ((Operation.set index value).Stays l ↔
        if 1 < node.toStrings.length then nodeBytes node'.toStrings ≤ 8192
        else l.chunks.length=1 →
          (nodeBytes node'.toStrings ≤ 8192 ↔ nodeBytes node.toStrings ≤ 8192)) := by
  have hplain : ∀ node∈l.nodes,node.Plain := fun node hnode => (h.sound node hnode).tight.plain
  have hresolve := resolveIndex_eq l index
  unfold ListValue.set Operation.Stays
  cases hposition : positionOf l.size index with
  | none =>
    rw [hposition] at hresolve
    rw [hresolve]
    refine .inl ⟨rfl,fun p chunk i hp => ?_⟩
    rw [hposition] at hp
    cases hp
  | some p =>
    rw [hposition] at hresolve
    have hp : p < (texts l.nodes).length := by
      rw [←Shape.size hplain]
      exact positionOf_lt hposition
    obtain ⟨before,node,node',after,i,hsplit,hset,hchunk,htight,hnew⟩ :=
      setNodes_chunkAt hsize h.sound hp
    rw [hresolve]
    dsimp only
    rw [hset]
    refine .inr ⟨before,node,node',after,i,hsplit,rfl,htight,hnew,?_⟩
    rw [hnew]
    constructor
    · exact fun hstays => hstays p node.toStrings i hposition hchunk
    · intro hstays p' chunk i' hp' hchunk'
      rw [hposition] at hp'
      cases hp'
      rw [chunks,hchunk] at hchunk'
      cases hchunk'
      exact hstays

theorem Ready.set (h : l.Ready) (hsize : value.length < 2^32)
    (hstays : (Operation.set index value).Stays l) : (l.set index value).2.Ready := by
  obtain ⟨hsame,-⟩ | ⟨before,node,node',after,i,hsplit,hset,htight,hnew,hiff⟩ :=
    h.set_cases index hsize
  · rw [hsame]
    exact h
  rw [hiff] at hstays
  have hsound := h.sound
  rw [hsplit] at hsound
  obtain ⟨hbefore,hrest⟩ := forall_mem_append.mp hsound
  obtain ⟨hnode,hafter⟩ := forall_mem_cons.mp hrest
  have hlength : node'.toStrings.length=node.toStrings.length := by rw [hnew,length_set]
  have hsound' : Sound node' := ⟨htight,fun hlong => by
    rw [hlength] at hlong
    rwa [if_pos hlong] at hstays⟩
  rw [hset]
  refine ⟨forall_mem_append.mpr ⟨hbefore,forall_mem_cons.mpr ⟨hsound',hafter⟩⟩,?_⟩
  have htold := h.told
  rw [hsplit] at htold
  -- the encoding can change only when the node is the only one
  by_cases halone : before=[] ∧ after=[]
  · obtain ⟨rfl,rfl⟩ := halone
    have hside : node'.totalBytes ≤ defaultLimits.listMaxListpackBytes ↔
        node.totalBytes ≤ defaultLimits.listMaxListpackBytes := by
      have hlimit : defaultLimits.listMaxListpackBytes=8192 := rfl
      rw [htight.totalBytes,hnode.tight.totalBytes,hlimit]
      split at hstays
      · rename_i hlong
        exact ⟨fun _ => hnode.budget hlong,fun _ => hstays⟩
      · exact hstays (by rw [chunks,hsplit]; rfl)
    change maybeConvert [node']=⟨l.encoding,[node']⟩
    change maybeConvert [node]=l at htold
    rw [←htold,maybeConvert,maybeConvert]
    by_cases hle : node.totalBytes ≤ defaultLimits.listMaxListpackBytes
    · rw [if_pos hle,if_pos (hside.mpr hle)]
    · rw [if_neg hle,if_neg fun hle' => hle (hside.mp hle')]
  · have hmany : ∀ n : Listpack,maybeConvert (before++n::after)=⟨.quickList,before++n::after⟩ := by
      intro n
      unfold maybeConvert
      split
      · rename_i node'' hone
        rcases before with _ | ⟨b,before⟩
        · exact absurd ⟨rfl,(List.cons.inj hone).2⟩ halone
        · exact absurd (List.cons.inj hone).2 (by simp)
      · rfl
    rw [hmany] at htold
    rw [hmany,←htold]

theorem Ready.not_budgeted (h : l.Ready) (hsize : value.length < 2^32)
    (hstays : ¬(Operation.set index value).Stays l) : ¬(l.set index value).2.Budgeted := by
  obtain ⟨-,hsame⟩ | ⟨before,node,node',after,i,hsplit,hset,htight,hnew,hiff⟩ :=
    h.set_cases index hsize
  · exact absurd hsame hstays
  rw [hiff] at hstays
  rw [hset]
  intro hbudgeted
  have hlength : node'.toStrings.length=node.toStrings.length := by rw [hnew,length_set]
  split at hstays
  · rename_i hlong
    have hbytes := hbudgeted.budget node' (by simp)
    rw [htight.plain.numElements,htight.totalBytes,hlength] at hbytes
    exact hstays (hbytes hlong)
  · rw [Classical.not_imp] at hstays
    obtain ⟨hone,hside⟩ := hstays
    have hlen : before=[] ∧ after=[] := by
      rw [chunks,hsplit,length_map,length_append,length_cons] at hone
      exact ⟨eq_nil_of_length_eq_zero (by omega),eq_nil_of_length_eq_zero (by omega)⟩
    obtain ⟨rfl,rfl⟩ := hlen
    have hsingle : ∀ (n : Listpack),(∃ m,[n]=[m] ∧ m.totalBytes ≤ 8192) ↔ n.totalBytes ≤ 8192 := by
      intro n
      refine ⟨?_,fun hle => ⟨n,rfl,hle⟩⟩
      rintro ⟨m,hsame,hle⟩
      cases hsame
      exact hle
    have hnode := h.sound node (by rw [hsplit]; simp)
    have hold := h.budgeted.packed
    rw [hsplit,nil_append,hsingle,hnode.tight.totalBytes] at hold
    have hpacked := hbudgeted.packed
    rw [nil_append,hsingle,htight.totalBytes] at hpacked
    exact hside (hpacked.symm.trans hold)

end Set

/-- Sequences of operations of which only the encoding and the node sizes are observed. -/
def budgets : Design Operation ListValue Unit Unit where
  step op l := ((),(op.step l).2)
  spec _ _ := ((),())
  Sees l _ := Budgeted l

theorem budgets_simulates : budgets.Simulates (fun l _ => l.Ready)
    fun op l _ => op.Storable ∧ op.Stays l where
  sees h := h.budgeted
  result _ _ := rfl
  next {op l a} h hallowed := by
    cases op with
    | pushFront value => exact h.pushFront hallowed.1
    | pushBack value => exact ready_maybeConvert (sound_appendTo h.sound hallowed.1)
    | popFront => exact h.popFront
    | popBack => exact h.popBack
    | set index value => exact h.set hallowed.1 hallowed.2
    | removeValue value count => exact h.removeValue value count
    | trim start stop => exact h.trim start stop
    | copy => exact h

theorem ready_empty : empty.Ready :=
  ready_rebuildFrom fun _ hx => absurd hx not_mem_nil

/-- **Budget**: after every operation of a sequence the encoding is the one of the nodes and nodes
of several elements are within 8192 bytes, exactly when every replacement stays within the budget. -/
theorem list_budget (ops : List Operation) (hstorable : ∀ op∈ops,op.Storable) :
    budgets.Follows ops empty () ↔
      budgets.Meets (fun op l _ => op.Storable ∧ op.Stays l) ops empty () := by
  refine ⟨budgets_simulates.meets_of_follows ?_ ops hstorable ready_empty,
    budgets_simulates.follows ops ready_empty⟩
  intro op l a hop h hnot
  cases op with
  | set index value => exact h.not_budgeted hop fun hstays => hnot ⟨hop,hstays⟩
  | _ => exact absurd ⟨hop,trivial⟩ hnot

theorem list_budget_pushes :
    budgets.Follows [.pushBack (ascii "a"),.pushBack (ascii "b"),.popBack,
      .pushFront (ascii "c")] empty () := by
  have hsize : ∀ value∈[ascii "a",ascii "b",ascii "c"],value.length < 2^32 := by decide
  refine (list_budget _ ?_).mpr ⟨⟨?_,trivial⟩,⟨?_,trivial⟩,⟨trivial,trivial⟩,⟨?_,trivial⟩,trivial⟩
  · intro op hop
    simp only [mem_cons,not_mem_nil,or_false] at hop
    rcases hop with rfl | rfl | rfl | rfl
    · exact hsize _ (by simp)
    · exact hsize _ (by simp)
    · trivial
    · exact hsize _ (by simp)
  · exact hsize _ (by simp)
  · exact hsize _ (by simp)
  · exact hsize _ (by simp)

/-- A list of one element whose replacement is larger than the budget stays a `listpack`. -/
theorem list_budget_replaced :
    ¬Budgeted ((empty.pushBack (ascii "a")).set 0 (replicate 9000 97)).2 := by
  intro hbudgeted
  obtain ⟨node,hnodes,hle⟩ := hbudgeted.packed.mp (by decide +kernel)
  have hbytes : ((empty.pushBack (ascii "a")).set 0 (replicate 9000 97)).2.nodes.map
      Listpack.totalBytes=[9014] := by decide +kernel
  rw [hnodes,map_singleton,singleton_inj] at hbytes
  omega

end ListValue

end Mnemos
