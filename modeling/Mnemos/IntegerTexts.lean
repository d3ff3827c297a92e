import Mnemos.McpProtocol

/-!
# Integers as JSON numbers

A JSON number is a double, so an integer of more than 53 significant bits may
come out as another one.
-/

open List

namespace Mnemos

namespace DoubleText

section Parts

variable {e s : ℕ} (he : e ≤ 63) (hlow : 2^52 ≤ s) (hhigh : s ≤ 2^53) (sign : Bool)

include he hhigh

include hlow

end Parts

end DoubleText

namespace Mcp

open DoubleText

section Texts

variable [FloatText] {n : ℤ}

end Texts

section Concrete

/-- The conversions, with every double printed as its whole part. -/
@[reducible] def wholeText : FloatText :=
  ⟨fun d => intDecimal (wholePart d),DoubleText.strtod,fun s => some (DoubleText.strtod s),
    DoubleText.ofInt⟩

attribute [local instance] wholeText

end Concrete

end Mcp

end Mnemos

/-! ## Map replies as JSON -/

open List

namespace Mnemos

theorem pairUp_map {A B : Type} (f : A → B) (xs : List A) :
    pairUp (xs.map f)=(pairUp xs).map fun e => ⟨f e.1,f e.2⟩ := by
  induction xs using pairUp.induct with
  | case1 key value rest ih => rw [map_cons,map_cons,pairUp,pairUp,ih,map_cons]
  | case2 xs hshort =>
    cases xs with
    | nil => rfl
    | cons key xs =>
      cases xs with
      | nil => rfl
      | cons value rest => exact absurd rfl (hshort key value rest)

theorem mapMembers_fresh (pairs : List (Σ _ : Reply×(Json×Bool),Reply×(Json×Bool)))
    (members : List (Bytes×Json))
    (h : (members.map Prod.fst++pairs.map fun e => sanitiseUtf8 e.1.1.str).Nodup) :
    pairs.foldl (fun members e => Json.setMember (sanitiseUtf8 e.1.1.str) e.2.2.1 members) members=
      members++pairs.map fun e => (sanitiseUtf8 e.1.1.str,e.2.2.1) := by
  induction pairs generalizing members with
  | nil => rw [foldl_nil,map_nil,append_nil]
  | cons e pairs ih =>
    rw [map_cons] at h
    have hfresh : sanitiseUtf8 e.1.1.str∉members.map Prod.fst := fun hmem =>
      (nodup_append.mp h).2.2 _ hmem _ mem_cons_self rfl
    rw [foldl_cons,Json.setMember_fresh hfresh,ih,map_cons,append_assoc,singleton_append]
    rwa [map_append,map_cons,map_nil,append_assoc,singleton_append]

/-! ## One member or pair for every pair -/

/-- A map with all its pairs, from its keys and values with their own renderings. -/
def wholeMap (items : List (Reply×Json)) : Json :=
  let pairs := pairUp items
  if pairs.all fun e => e.1.1.isKey then
    .object (pairs.map fun e => (sanitiseUtf8 e.1.1.str,e.2.2))
  else .array (pairs.map fun e => .array [e.1.2,e.2.2])

def repairedKeys (es : List Reply) : List Bytes := (pairUp es).map fun e => sanitiseUtf8 e.1.str

/-- The keys of a map that becomes an object differ when they are repaired. -/
def DistinctKeys (es : List Reply) : Prop :=
  (pairUp es).all (fun e => e.1.isKey)=true → (repairedKeys es).Nodup

mutual

def KeysKept : Reply → Prop
  | .array es | .set es | .push es => AllKept es
  | .map es => DistinctKeys es ∧ AllKept es
  | _ => True

def AllKept : List Reply → Prop
  | [] => True
  | r::rest => KeysKept r ∧ AllKept rest

end

theorem mapToJson_whole {items : List (Reply×(Json×Bool))}
    (h : DistinctKeys (items.map Prod.fst)) :
    (mapToJson items).1=wholeMap (items.map fun e => (e.1,e.2.1)) := by
  unfold DistinctKeys repairedKeys at h
  rw [pairUp_map,all_map,map_map] at h
  rw [mapToJson,wholeMap,pairUp_map,all_map,map_map,map_map]
  by_cases hkeys : (pairUp items).all (fun e => e.1.1.isKey)=true
  · rw [if_pos hkeys]
    exact (congrArg Json.object (mapMembers_fresh _ [] (h hkeys))).trans (if_pos hkeys).symm
  · rw [if_neg hkeys]
    exact (if_neg hkeys).symm

section Rendering

variable [FloatText]

mutual

def wholeJson : Reply → Json
  | .array es | .set es | .push es => .array ((wholeItems es).map Prod.snd)
  | .map es => wholeMap (wholeItems es)
  | r => (replyToJson r).1

def wholeItems : List Reply → List (Reply×Json)
  | [] => []
  | r::rest => (r,wholeJson r)::wholeItems rest

end

theorem repliesToJson_fst (es : List Reply) : (repliesToJson es).map Prod.fst=es := by
  induction es with
  | nil => rfl
  | cons r es ih => rw [repliesToJson,map_cons,ih]

mutual

theorem replyToJson_kept : ∀ r : Reply,KeysKept r → (replyToJson r).1=wholeJson r
  | .array es,h | .set es,h | .push es,h => by
    rw [replyToJson,wholeJson,← repliesToJson_kept es h,map_map]
    rfl
  | .map es,h => by
    rw [replyToJson,wholeJson,← repliesToJson_kept es h.2]
    exact mapToJson_whole (by rw [repliesToJson_fst]; exact h.1)
  | .simpleString _,_ | .error _,_ | .bulk _,_ | .bigNumber _,_ | .verbatim _,_ | .integer _,_
  | .double _,_ | .boolean _,_ | .null,_ => by rw [wholeJson] <;> exact nofun

theorem repliesToJson_kept : ∀ es : List Reply,AllKept es →
    (repliesToJson es).map (fun e => (e.1,e.2.1))=wholeItems es
  | [],_ => rfl
  | r::es,h => by
    rw [repliesToJson,map_cons,wholeItems,replyToJson_kept r h.1,repliesToJson_kept es h.2]

end

end Rendering

section Concrete

attribute [local instance] DoubleText.reference

end Concrete

end Mnemos
