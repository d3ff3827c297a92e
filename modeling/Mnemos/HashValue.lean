import Mathlib.Data.Finmap
import Mnemos.Collections
import Mnemos.Refinement

/-!
# Hashes

A hash is a listpack of fields and values until it holds too many fields or a
long one, and a table from then on.
-/

namespace Mnemos

open List

/-- Actual `HashValue`. The source keeps both containers and leaves the one that the encoding
does not name empty. -/
inductive HashValue where
  | listPack (lp : Listpack)
  | hashTable (table : Dict Bytes)

namespace HashValue

def empty : HashValue := .listPack .empty

def encoding : HashValue → ObjEncoding
  | listPack _ => .listPack
  | hashTable _ => .hashTable

def size : HashValue → ℕ
  | listPack lp => lp.numElements/2
  | hashTable table => table.size

def get (h : HashValue) (field : Bytes) : Option Bytes :=
  match h with
  | hashTable table => table.peek field
  | listPack lp =>
    match lp.find field 0 2 with
    | none => none
    | some index => (lp.get (index+1)).map Element.toString

def contains (h : HashValue) (field : Bytes) : Bool :=
  match h with
  | hashTable table => (table.peek field).isSome
  | listPack lp => (lp.find field 0 2).isSome

def shouldConvert (h : HashValue) (field value : Bytes) : Bool :=
  defaultLimits.hashMaxListpackEntries ≤ h.size ||
    defaultLimits.hashMaxListpackValue < field.length ||
    defaultLimits.hashMaxListpackValue < value.length

def toTable (lp : Listpack) : Dict Bytes :=
  (pairUp lp.toStrings).foldl (fun table e => (table.insert e.1 e.2).1) .init

def convertToHashTable : HashValue → HashValue
  | hashTable table => hashTable table
  | listPack lp => hashTable (toTable lp)

def longestText (es : List Element) : ℕ :=
  es.foldl (fun longest e =>
    match e with
    | .integer _ => longest
    | .string s => max longest s.length) 0

def adoptListpack (lp : Listpack) : Option HashValue :=
  if lp.numElements%2≠0 then none
  else
    let longest := longestText lp.elements
    if defaultLimits.hashMaxListpackEntries < lp.numElements/2 ||
        defaultLimits.hashMaxListpackValue < longest then
      some (convertToHashTable (listPack lp))
    else some (listPack lp)

def set (h : HashValue) (field value : Bytes) : Bool×HashValue :=
  match h with
  | hashTable table =>
    let (existing,table) := table.find field
    (existing.isNone,hashTable (table.insert field value).1)
  | listPack lp =>
    match lp.find field 0 2 with
    | some index => (false,listPack ((lp.replaceAt (index+1) value).getD lp))
    | none =>
      if (listPack lp).shouldConvert field value then
        (true,hashTable ((toTable lp).insert field value).1)
      else (true,listPack ((lp.append field).append value))

def erase (h : HashValue) (field : Bytes) : Bool×HashValue :=
  match h with
  | hashTable table => ((table.erase field).2,hashTable (table.erase field).1)
  | listPack lp =>
    match lp.find field 0 2 with
    | none => (false,listPack lp)
    | some index =>
      match lp.eraseRange index 2 with
      | none => (false,listPack lp)
      | some lp => (true,listPack lp)

def flatten : HashValue → List Bytes
  | listPack lp => lp.toStrings
  | hashTable table => flatPairs table.entries

def fields (h : HashValue) : List Bytes := (pairUp h.flatten).map fun e => e.1

def values (h : HashValue) : List Bytes := (pairUp h.flatten).map fun e => e.2

def copy (h : HashValue) : HashValue :=
  (pairUp h.flatten).foldl (fun copied e => (copied.set e.1 e.2).2) empty

def entries (h : HashValue) : List (Dict.Entry Bytes) := pairUp h.flatten

def lookup (h : HashValue) (field : Bytes) : Option Bytes := h.entries.dlookup field

/-- The invariant: a packed hash holds pairs with distinct fields in stored form. -/
def Ok : HashValue → Prop
  | listPack lp => ∃ ps,lp.Holds (Listpack.stored ps) ∧ ps.NodupKeys
  | hashTable _ => True

@[simp] theorem entries_hashTable (table : Dict Bytes) :
    (hashTable table).entries=table.entries := pairUp_flatPairs _

variable {h : HashValue} {ps : List (Dict.Entry Bytes)} {lp : Listpack}

theorem entries_listPack (h : lp.Holds (Listpack.stored ps)) : (listPack lp).entries=ps := by
  rw [entries,flatten,h.toStrings,Listpack.stored,Listpack.map_toString_elementOf,pairUp_flatPairs]

theorem empty_ok : empty.Ok := ⟨[],Listpack.holds_empty,nodupKeys_nil⟩

theorem entries_empty : empty.entries=[] := entries_listPack Listpack.holds_empty

theorem Ok.nodupKeys (hok : h.Ok) : h.entries.NodupKeys := by
  cases h with
  | hashTable table =>
    rw [entries_hashTable]
    exact table.entries_nodupKeys
  | listPack lp =>
    obtain ⟨ps,hholds,hkeys⟩ := hok
    rw [entries_listPack hholds]
    exact hkeys

theorem Ok.get (hok : h.Ok) (field : Bytes) : h.get field=h.lookup field := by
  cases h with
  | hashTable table =>
    rw [HashValue.get,Dict.peek_eq,lookup,entries_hashTable]
    rfl
  | listPack lp =>
    obtain ⟨ps,hholds,hkeys⟩ := hok
    rw [HashValue.get,hholds.find,lookup,entries_listPack hholds]
    rcases Listpack.findIn_stored field ps with ⟨before,value,after,rfl,hbefore,hfind⟩ | ⟨hnone,hfind⟩
    · rw [hfind]
      dsimp only
      rw [hholds.get_stored,dlookup_append,dlookup_eq_none.mpr hbefore,
        dlookup_cons_eq,Option.map_some,toString_elementOf]
      rfl
    · rw [hfind,dlookup_eq_none.mpr hnone]

theorem Ok.contains (hok : h.Ok) (field : Bytes) :
    h.contains field=(h.lookup field).isSome := by
  cases h with
  | hashTable table =>
    rw [HashValue.contains,Dict.peek_eq,lookup,entries_hashTable]
    rfl
  | listPack lp =>
    obtain ⟨ps,hholds,hkeys⟩ := hok
    rw [HashValue.contains,hholds.find,lookup,entries_listPack hholds]
    rcases Listpack.findIn_stored field ps with ⟨before,value,after,rfl,hbefore,hfind⟩ | ⟨hnone,hfind⟩
    · rw [hfind,dlookup_append,dlookup_eq_none.mpr hbefore,dlookup_cons_eq]
      rfl
    · rw [hfind,dlookup_eq_none.mpr hnone]
      rfl

theorem lookup_toTable (hholds : lp.Holds (Listpack.stored ps)) (hkeys : ps.NodupKeys) (k : Bytes)
    :
    (toTable lp).lookup k=ps.dlookup k := by
  rw [toTable,hholds.toStrings,Listpack.stored,Listpack.map_toString_elementOf,pairUp_flatPairs,
    Dict.lookup_insertAll hkeys]

theorem dlookup_replace {before after : List (Dict.Entry Bytes)} {key value : Bytes}
    (hbefore : key∉before.keys) (value' k : Bytes) :
    (before++⟨key,value'⟩::after).dlookup k=
      if k=key then some value' else (before++⟨key,value⟩::after).dlookup k := by
  rw [dlookup_append,dlookup_append]
  by_cases hk : k=key
  · rw [if_pos hk,hk,dlookup_eq_none.mpr hbefore,dlookup_cons_eq]
    rfl
  · rw [if_neg hk,dlookup_cons_ne _ (⟨key,value'⟩ : Dict.Entry Bytes) hk,dlookup_cons_ne _ (⟨key,value⟩ : Dict.Entry Bytes) hk]

theorem dlookup_drop {before after : List (Dict.Entry Bytes)} {key value : Bytes}
    (hkeys : (before++⟨key,value⟩::after).NodupKeys) (k : Bytes) :
    (before++after).dlookup k=
      if k=key then none else (before++⟨key,value⟩::after).dlookup k := by
  have hn : key∉(before++after).keys := by
    have hperm : (before++⟨key,value⟩::after) ~ ⟨key,value⟩::(before++after) := perm_middle
    exact (nodupKeys_cons.mp ((perm_nodupKeys hperm).mp hkeys)).1
  by_cases hk : k=key
  · rw [if_pos hk,hk,dlookup_eq_none.mpr hn]
  · rw [if_neg hk,dlookup_append,dlookup_append,dlookup_cons_ne _ (⟨key,value⟩ : Dict.Entry Bytes) hk]

/-- `set` binds the field and reports a new one. Only a value that replaces a packed one can
have any size, since a long new one converts the hash. -/
theorem Ok.set (hok : h.Ok) {field value : Bytes}
    (hsize : h.encoding=.listPack → (h.lookup field).isSome=true → value.length < 2^32) :
    (h.set field value).2.Ok ∧
      (∀ k,(h.set field value).2.lookup k=if k=field then some value else h.lookup k) ∧
      (h.set field value).1=(h.lookup field).isNone := by
  cases h with
  | hashTable table =>
    refine ⟨trivial,fun k => ?_,?_⟩
    · simp only [HashValue.set,lookup,entries_hashTable]
      refine (Dict.lookup_insert (table.find field).2 field value k).trans ?_
      rw [Dict.lookup_find]
      rfl
    · simp only [HashValue.set,Dict.find_fst,lookup,entries_hashTable]
      rfl
  | listPack lp =>
    obtain ⟨ps,hholds,hkeys⟩ := hok
    replace hsize := hsize rfl
    rw [lookup,entries_listPack hholds] at hsize
    simp only [HashValue.set,hholds.find,lookup,entries_listPack hholds]
    rcases Listpack.findIn_stored field ps with ⟨before,old,after,rfl,hbefore,hfind⟩ | ⟨hnone,hfind⟩
    · rw [hfind]
      dsimp only
      have hvalue : value.length < 2^32 := hsize (by
        rw [dlookup_append,dlookup_eq_none.mpr hbefore,dlookup_cons_eq]
        rfl)
      have hindex : 2*before.length+1 < (Listpack.stored (before++⟨field,old⟩::after)).length := by
        simp [Listpack.stored]
      obtain ⟨lp',hreplace,hholds'⟩ := hholds.replaceAt hvalue hindex
      have hstored : (Listpack.stored (before++⟨field,old⟩::after)).set (2*before.length+1)
          (elementOf value)=Listpack.stored (before++⟨field,value⟩::after) := by
        simp only [Listpack.stored,flatPairs_append,flatPairs_cons,map_append,map_cons]
        rw [set_append_right _ _ (by simp)]
        simp
      rw [hstored] at hholds'
      rw [hreplace,Option.getD_some,entries_listPack hholds']
      refine ⟨⟨_,hholds',?_⟩,dlookup_replace hbefore value,?_⟩
      · unfold NodupKeys List.keys at hkeys ⊢
        simpa using hkeys
      · rw [dlookup_append,dlookup_eq_none.mpr hbefore,dlookup_cons_eq]
        rfl
    · rw [hfind]
      dsimp only
      have hmiss : ps.dlookup field=none := dlookup_eq_none.mpr hnone
      split
      · refine ⟨trivial,fun k => ?_,by rw [hmiss]; rfl⟩
        rw [entries_hashTable]
        have hins := Dict.lookup_insert (toTable lp) field value k
        rw [lookup_toTable hholds hkeys] at hins
        exact hins
      · rename_i hsmall
        simp only [shouldConvert,Bool.or_eq_true,decide_eq_true_eq,not_or,not_lt] at hsmall
        have hlimit : defaultLimits.hashMaxListpackValue=64 := rfl
        have hholds' := (hholds.append (by omega : field.length < 2^32)).append
          (by omega : value.length < 2^32)
        have hstored : Listpack.stored ps++[elementOf field]++[elementOf value]=
            Listpack.stored (ps++[⟨field,value⟩]) := by
          simp [Listpack.stored,flatPairs]
        rw [hstored] at hholds'
        dsimp only
        rw [entries_listPack hholds']
        refine ⟨⟨_,hholds',?_⟩,fun k => ?_,by rw [hmiss]; rfl⟩
        · exact (perm_nodupKeys perm_append_comm).mpr
            (nodupKeys_cons.mpr ⟨hnone,hkeys⟩)
        · rw [dlookup_append]
          by_cases hk : k=field
          · rw [if_pos hk,hk,hmiss,dlookup_cons_eq]
            rfl
          · rw [if_neg hk,dlookup_cons_ne [] (⟨field,value⟩ : Dict.Entry Bytes) hk]
            cases ps.dlookup k <;> rfl

theorem Ok.erase (hok : h.Ok) (field : Bytes) :
    (h.erase field).2.Ok ∧
      (∀ k,(h.erase field).2.lookup k=if k=field then none else h.lookup k) ∧
      (h.erase field).1=(h.lookup field).isSome := by
  cases h with
  | hashTable table =>
    refine ⟨trivial,fun k => ?_,?_⟩
    · simp only [HashValue.erase,lookup,entries_hashTable]
      exact Dict.lookup_erase table field k
    · simp only [HashValue.erase,Dict.erase_snd,lookup,entries_hashTable]
      rfl
  | listPack lp =>
    obtain ⟨ps,hholds,hkeys⟩ := hok
    simp only [HashValue.erase,hholds.find,lookup,entries_listPack hholds]
    rcases Listpack.findIn_stored field ps with ⟨before,value,after,rfl,hbefore,hfind⟩ | ⟨hnone,hfind⟩
    · obtain ⟨lp',herase,hholds'⟩ := hholds.erase_pair
      rw [hfind]
      dsimp only
      rw [herase]
      dsimp only
      rw [entries_listPack hholds']
      refine ⟨⟨_,hholds',?_⟩,dlookup_drop hkeys,?_⟩
      · have hperm : (before++⟨field,value⟩::after) ~ ⟨field,value⟩::(before++after) :=
          perm_middle
        exact (nodupKeys_cons.mp ((perm_nodupKeys hperm).mp hkeys)).2
      · rw [dlookup_append,dlookup_eq_none.mpr hbefore,dlookup_cons_eq]
        rfl
    · have hmiss : ps.dlookup field=none := dlookup_eq_none.mpr hnone
      rw [hfind]
      dsimp only
      rw [entries_listPack hholds,hmiss]
      refine ⟨⟨ps,hholds,hkeys⟩,fun k => ?_,rfl⟩
      by_cases hk : k=field
      · rw [if_pos hk,hk,hmiss]
      · rw [if_neg hk]

theorem Ok.setAll {es : List (Dict.Entry Bytes)} (hok : h.Ok) (hkeys : es.NodupKeys)
    (hnew : ∀ e∈es,h.lookup e.1=none) :
    (es.foldl (fun copied e => (copied.set e.1 e.2).2) h).Ok ∧
      ∀ k,(es.foldl (fun copied e => (copied.set e.1 e.2).2) h).lookup k=
        (es.dlookup k).or (h.lookup k) := by
  induction es generalizing h with
  | nil => exact ⟨hok,fun k => rfl⟩
  | cons e es ih =>
    rw [nodupKeys_cons] at hkeys
    have hmiss := hnew e mem_cons_self
    have hsize : (h.lookup e.1).isSome=true → e.2.length < 2^32 := by
      rw [hmiss]
      intro hsome
      cases hsome
    obtain ⟨hok',hlookup,-⟩ := hok.set fun _ => hsize
    have hstill : ∀ x∈es,(h.set e.1 e.2).2.lookup x.1=none := by
      intro x hx
      have hne : x.1≠e.1 := fun he => hkeys.1 (he ▸ mem_keys_of_mem hx)
      rw [hlookup,if_neg hne]
      exact hnew x (mem_cons_of_mem e hx)
    obtain ⟨hres,hall⟩ := ih hok' hkeys.2 hstill
    refine ⟨hres,fun k => ?_⟩
    rw [foldl_cons,hall,hlookup]
    by_cases hk : k=e.1
    · rw [if_pos hk,hk,dlookup_cons_eq,dlookup_eq_none.mpr hkeys.1]
      rfl
    · rw [if_neg hk,dlookup_cons_ne es e hk]

theorem setAll_empty {es : List (Dict.Entry Bytes)} (hkeys : es.NodupKeys) :
    (es.foldl (fun copied e => (copied.set e.1 e.2).2) empty).Ok ∧
      ∀ k,(es.foldl (fun copied e => (copied.set e.1 e.2).2) empty).lookup k=es.dlookup k := by
  have hnone : ∀ k,empty.lookup k=none := fun k => by rw [lookup,entries_empty,dlookup_nil]
  obtain ⟨hok,hlookup⟩ := empty_ok.setAll hkeys fun e _ => hnone e.1
  exact ⟨hok,fun k => by rw [hlookup,hnone,Option.or_none]⟩

theorem Ok.entries_perm {h h' : HashValue} (hok : h.Ok) (hok' : h'.Ok)
    (hsame : ∀ k,h.lookup k=h'.lookup k) : h.entries ~ h'.entries := by
  refine lookup_ext hok.nodupKeys hok'.nodupKeys fun key value => ?_
  change value∈h.lookup key ↔ value∈h'.lookup key
  rw [hsame key]

theorem Ok.size (hok : h.Ok) : h.size=h.entries.length := by
  cases h with
  | hashTable table =>
    rw [entries_hashTable]
    exact table.size_eq
  | listPack lp =>
    obtain ⟨ps,hholds,-⟩ := hok
    rw [entries_listPack hholds,HashValue.size,hholds.numElements,Listpack.stored_length]
    omega

theorem adoptListpack_ok (hholds : lp.Holds (Listpack.stored ps)) (hkeys : ps.NodupKeys) :
    ∃ h,adoptListpack lp=some h ∧ h.Ok ∧ ∀ k,h.lookup k=ps.dlookup k := by
  have heven : ¬lp.numElements%2≠0 := by
    rw [hholds.numElements,Listpack.stored_length]
    omega
  rw [adoptListpack,if_neg heven]
  dsimp only
  split
  · refine ⟨_,rfl,trivial,fun k => ?_⟩
    rw [lookup,convertToHashTable,entries_hashTable]
    exact lookup_toTable hholds hkeys k
  · exact ⟨_,rfl,⟨ps,hholds,hkeys⟩,fun k => by rw [lookup,entries_listPack hholds]⟩

end HashValue

end Mnemos

/-! ## Sequences of hash operations -/

namespace Mnemos.HashValue

open Refinement

inductive Operation where
  | set (field value : Bytes)
  | erase (field : Bytes)
  | copy

abbrev FieldMap := Finmap fun _ : Bytes => Bytes

def Operation.step : Operation → HashValue → Option Bool×HashValue
  | .set field value,h => ((h.set field value).1,(h.set field value).2)
  | .erase field,h => ((h.erase field).1,(h.erase field).2)
  | .copy,h => (none,h.copy)

def Operation.spec : Operation → FieldMap → Option Bool×FieldMap
  | .set field value,m => (some (decide (field∉m)),m.insert field value)
  | .erase field,m => (some (decide (field∈m)),m.erase field)
  | .copy,m => (none,m)

/-- Everything that can be asked of a hash is answered as by the finite map. -/
structure Shows (h : HashValue) (m : FieldMap) : Prop where
  get : ∀ field,h.get field=m.lookup field
  contains : ∀ field,h.contains field=decide (field∈m)
  size : h.size=m.keys.card
  /-- The listings: one listing of the bindings, flat, by field and by value. -/
  listing : ∃ es : List (Dict.Entry Bytes),(es : Multiset (Dict.Entry Bytes))=m.entries ∧
    h.flatten=flatPairs es ∧ h.fields=es.map Sigma.fst ∧ h.values=es.map Sigma.snd

def design : Design Operation HashValue FieldMap (Option Bool) where
  step := Operation.step
  spec := Operation.spec
  Sees := Shows

/-- No value of 2^32 bytes or more replaces a packed one. -/
def Operation.Fits : Operation → HashValue → FieldMap → Prop
  | .set field value,h,m => h.encoding=.listPack → field∈m → value.length < 2^32
  | .erase _,_,_ => True
  | .copy,_,_ => True

structure Stands (h : HashValue) (m : FieldMap) : Prop where
  ok : h.Ok
  same : ∀ field,h.lookup field=m.lookup field

theorem Ok.flatten {h : HashValue} (hok : h.Ok) : h.flatten=flatPairs h.entries := by
  cases h with
  | hashTable table => rw [entries_hashTable]; rfl
  | listPack lp =>
    obtain ⟨ps,hholds,-⟩ := hok
    rw [entries_listPack hholds]
    refine hholds.toStrings.trans ?_
    rw [Listpack.stored,Listpack.map_toString_elementOf]

section Stands

variable {h : HashValue} {m : FieldMap}

theorem stands_empty : Stands empty ∅ := by
  refine ⟨empty_ok,fun field => ?_⟩
  rw [lookup,entries_empty]
  rfl

theorem Stands.eq_toFinmap (hs : Stands h m) : m=AList.toFinmap ⟨h.entries,hs.ok.nodupKeys⟩ :=
  Finmap.ext_lookup fun field => (hs.same field).symm

theorem Stands.mem_iff (hs : Stands h m) (field : Bytes) :
    field∈m ↔ (h.lookup field).isSome=true := by
  rw [hs.same,Finmap.lookup_isSome]

theorem Stands.shows (hs : Stands h m) : Shows h m where
  get field := (hs.ok.get field).trans (hs.same field)
  contains field := by
    rw [Bool.eq_iff_iff,hs.ok.contains,decide_eq_true_eq]
    exact (hs.mem_iff field).symm
  size := by
    rw [hs.ok.size,hs.eq_toFinmap]
    exact (List.length_map Sigma.fst).symm
  listing := by
    refine ⟨h.entries,?_,hs.ok.flatten,rfl,rfl⟩
    rw [hs.eq_toFinmap]
    rfl

theorem Stands.set (hs : Stands h m) {field value : Bytes}
    (hfits : (Operation.set field value).Fits h m) :
    (h.set field value).1=decide (field∉m) ∧
      Stands (h.set field value).2 (m.insert field value) := by
  obtain ⟨hok,hlookup,hnew⟩ := hs.ok.set fun hpacked hbound =>
    hfits hpacked ((hs.mem_iff field).mpr hbound)
  refine ⟨?_,hok,fun k => ?_⟩
  · rw [hnew,Bool.eq_iff_iff,decide_eq_true_eq,hs.mem_iff]
    cases h.lookup field <;> simp
  · rw [hlookup]
    split
    · rename_i hk
      rw [hk,Finmap.lookup_insert]
    · rename_i hk
      rw [Finmap.lookup_insert_of_ne m hk,hs.same]

theorem Stands.erase (hs : Stands h m) (field : Bytes) :
    (h.erase field).1=decide (field∈m) ∧ Stands (h.erase field).2 (m.erase field) := by
  obtain ⟨hok,hlookup,hthere⟩ := hs.ok.erase field
  refine ⟨?_,hok,fun k => ?_⟩
  · rw [hthere,Bool.eq_iff_iff,decide_eq_true_eq,hs.mem_iff]
  · rw [hlookup]
    split
    · rename_i hk
      rw [hk,Finmap.lookup_erase]
    · rename_i hk
      rw [Finmap.lookup_erase_ne hk,hs.same]

theorem Stands.copy (hs : Stands h m) : Stands h.copy m := by
  obtain ⟨hok,hlookup⟩ := setAll_empty hs.ok.nodupKeys
  exact ⟨hok,fun k => (hlookup k).trans (hs.same k)⟩

end Stands

theorem simulates : design.Simulates Stands Operation.Fits where
  sees h := h.shows
  result {op h m} hs hfits := by
    cases op with
    | set field value => exact congrArg some (hs.set hfits).1
    | erase field => exact congrArg some (hs.erase field).1
    | copy => rfl
  next {op h m} hs hfits := by
    cases op with
    | set field value => exact (hs.set hfits).2
    | erase field => exact (hs.erase field).2
    | copy => exact hs.copy

theorem get_listPack_ne (lp : Listpack) (field : Bytes) {value : Bytes}
    (hlong : 2^32 ≤ value.length) : (listPack lp).get field≠some value := by
  intro hget
  unfold HashValue.get at hget
  dsimp only at hget
  split at hget
  · cases hget
  · obtain ⟨e,he,rfl⟩ := Option.map_eq_some_iff.mp hget
    exact absurd (Listpack.get_toString_lt he) (Nat.not_lt.mpr hlong)

theorem set_listPack {lp : Listpack} {field : Bytes} (value : Bytes)
    (hok : (listPack lp).Ok) (hbound : ((listPack lp).lookup field).isSome=true) :
    ∃ lp',((listPack lp).set field value).2=listPack lp' := by
  have hcontains := hok.contains field
  rw [hbound] at hcontains
  unfold HashValue.contains at hcontains
  obtain ⟨index,hindex⟩ := Option.isSome_iff_exists.mp hcontains
  unfold HashValue.set
  dsimp only
  rw [hindex]
  exact ⟨_,rfl⟩

theorem not_shows_of_not_fits (op : Operation) {h : HashValue} {m : FieldMap} (hs : Stands h m)
    (hfits : ¬op.Fits h m) : ¬Shows (op.step h).2 (op.spec m).2 := by
  cases op with
  | erase field => exact absurd trivial hfits
  | copy => exact absurd trivial hfits
  | set field value =>
    unfold Operation.Fits at hfits
    push Not at hfits
    obtain ⟨hpacked,hmem,hlong⟩ := hfits
    intro hshows
    have hget := hshows.get field
    cases h with
    | hashTable table => cases hpacked
    | listPack lp =>
      obtain ⟨lp',hset⟩ := set_listPack value hs.ok ((hs.mem_iff field).mp hmem)
      unfold Operation.step Operation.spec at hget
      dsimp only at hget
      rw [hset,Finmap.lookup_insert] at hget
      exact get_listPack_ne lp' field hlong hget

/-- **Hashes**: a sequence of operations answers as it does on a finite map exactly when, whenever
it comes to assign a bound field while the hash is packed, the value is shorter than 2^32 bytes. -/
theorem hash_refines_iff (ops : List Operation) :
    design.Follows ops empty ∅ ↔ design.Meets Operation.Fits ops empty ∅ :=
  simulates.follows_iff (not_shows_of_not_fits _) ops stands_empty

/-- A value of 2^32 zero bytes for a field that is there. -/
theorem hash_long_value_lost :
    ¬design.Follows [.set [102] [120],.set [102] (List.replicate (2^32) 0)] empty ∅ := by
  rintro ⟨-,-,-,-,hshows⟩
  have hfits : (Operation.set [102] [120]).Fits empty ∅ := fun _ hmem =>
    absurd hmem (Finmap.notMem_empty)
  have hs : Stands (empty.set [102] [120]).2 (Finmap.insert [102] [120] ∅) :=
    (stands_empty.set hfits).2
  refine not_shows_of_not_fits (.set [102] (List.replicate (2^32) 0)) hs (fun hshort => ?_) hshows
  have hlong := hshort rfl (Finmap.mem_insert.mpr (.inl rfl))
  rw [List.length_replicate] at hlong
  exact absurd hlong (Nat.lt_irrefl _)

/-! ## When a hash stays packed -/

open List

/-- A hash that reports a listpack has few fields and only short fields and values. -/
def Within (h : HashValue) : Prop :=
  h.encoding=.listPack → h.size ≤ 512 ∧ (∀ field∈h.fields,field.length ≤ 64) ∧
    ∀ value∈h.values,value.length ≤ 64

/-- Sequences of operations of which only the limits are observed. -/
def limits : Design Operation HashValue FieldMap Unit where
  step op h := ((),(op.step h).2)
  spec op m := ((),(op.spec m).2)
  Sees h _ := Within h

/-- No value of more than 64 bytes replaces a packed one. -/
def Operation.Short : Operation → HashValue → FieldMap → Prop
  | .set field value,h,m => h.encoding=.listPack → field∈m → value.length ≤ 64
  | .erase _,_,_ => True
  | .copy,_,_ => True

structure Small (m : FieldMap) : Prop where
  card : m.keys.card ≤ 512
  short : ∀ {field value},m.lookup field=some value → field.length ≤ 64 ∧ value.length ≤ 64

section Small

variable {m : FieldMap} {field value : Bytes}

theorem small_empty : Small ∅ := ⟨Nat.zero_le _,nofun⟩

theorem Small.replace (h : Small m) (hmem : field∈m) (hvalue : value.length ≤ 64) :
    Small (m.insert field value) := by
  have hkeys : (m.insert field value).keys=m.keys := by
    ext k
    rw [Finmap.mem_keys,Finmap.mem_keys,Finmap.mem_insert]
    exact ⟨fun hk => hk.elim (fun he => he ▸ hmem) id,.inr⟩
  refine ⟨by rw [hkeys]; exact h.card,fun {k v} hfound => ?_⟩
  by_cases hk : k=field
  · obtain ⟨old,hold⟩ := Finmap.mem_iff.mp hmem
    rw [hk,Finmap.lookup_insert] at hfound
    cases hfound
    exact ⟨hk ▸ (h.short hold).1,hvalue⟩
  · rw [Finmap.lookup_insert_of_ne m hk] at hfound
    exact h.short hfound

theorem Small.add (h : Small m) (hroom : m.keys.card < 512) (hfield : field.length ≤ 64)
    (hvalue : value.length ≤ 64) : Small (m.insert field value) := by
  have hkeys : (m.insert field value).keys ⊆ insert field m.keys := fun k hk => by
    rw [Finmap.mem_keys,Finmap.mem_insert] at hk
    rw [Finset.mem_insert,Finmap.mem_keys]
    exact hk
  constructor
  · exact (Finset.card_le_card hkeys).trans ((Finset.card_insert_le _ _).trans hroom)
  · intro k v hfound
    by_cases hk : k=field
    · rw [hk,Finmap.lookup_insert] at hfound
      cases hfound
      exact ⟨hk ▸ hfield,hvalue⟩
    · rw [Finmap.lookup_insert_of_ne m hk] at hfound
      exact h.short hfound

theorem Small.erase (h : Small m) (field : Bytes) : Small (m.erase field) := by
  constructor
  · rw [Finmap.keys_erase]
    exact (Finset.card_le_card (Finset.erase_subset _ _)).trans h.card
  · intro k v hfound
    by_cases hk : k=field
    · rw [hk,Finmap.lookup_erase] at hfound
      cases hfound
    · rw [Finmap.lookup_erase_ne hk] at hfound
      exact h.short hfound

end Small

section Set

variable {h : HashValue} {m : FieldMap} {field value : Bytes}

theorem Stands.within_iff (hs : Stands h m) : Within h ↔ (h.encoding=.listPack → Small m) := by
  have hlisted : ∀ e,e∈h.entries ↔ m.lookup e.1=some e.2 := fun e => by
    rw [← hs.same]
    exact (mem_dlookup_iff hs.ok.nodupKeys).symm
  have hsize := hs.shows.size
  constructor
  · intro hwithin hpacked
    obtain ⟨hcard,hfields,hvalues⟩ := hwithin hpacked
    refine ⟨hsize ▸ hcard,fun {k v} hfound => ?_⟩
    have hmem := (hlisted ⟨k,v⟩).mpr hfound
    exact ⟨hfields _ (mem_map_of_mem hmem),hvalues _ (mem_map_of_mem hmem)⟩
  · intro hsmall hpacked
    have hsmall := hsmall hpacked
    refine ⟨hsize ▸ hsmall.card,fun k hk => ?_,fun v hv => ?_⟩
    · obtain ⟨e,he,rfl⟩ := mem_map.mp hk
      exact (hsmall.short ((hlisted e).mp he)).1
    · obtain ⟨e,he,rfl⟩ := mem_map.mp hv
      exact (hsmall.short ((hlisted e).mp he)).2

/-- A hash that is packed after an assignment was packed before, and the field was there or the
limits were checked. -/
theorem packed_of_set (h : HashValue) (field value : Bytes)
    (hpacked : (h.set field value).2.encoding=.listPack) :
    h.encoding=.listPack ∧ (h.contains field=true ∨ h.shouldConvert field value=false) := by
  cases h with
  | hashTable table => cases hpacked
  | listPack lp =>
    refine ⟨rfl,?_⟩
    unfold HashValue.set at hpacked
    unfold HashValue.contains
    dsimp only at hpacked ⊢
    cases hfind : lp.find field 0 2 with
    | some index => exact .inl rfl
    | none =>
      rw [hfind] at hpacked
      cases hconvert : (listPack lp).shouldConvert field value with
      | false => exact .inr rfl
      | true =>
        dsimp only at hpacked
        rw [hconvert,if_pos rfl] at hpacked
        cases hpacked

theorem Stands.set_small (hs : Stands h m) (hsmall : h.encoding=.listPack → Small m)
    (hshort : (Operation.set field value).Short h m)
    (hpacked : (h.set field value).2.encoding=.listPack) : Small (m.insert field value) := by
  obtain ⟨hbefore,hcontains | hconvert⟩ := packed_of_set h field value hpacked
  · have hmem : field∈m := by
      rw [hs.shows.contains] at hcontains
      exact of_decide_eq_true hcontains
    exact (hsmall hbefore).replace hmem (hshort hbefore hmem)
  · simp only [shouldConvert,Bool.or_eq_false_iff,decide_eq_false_iff_not,not_le,not_lt] at hconvert
    obtain ⟨⟨hroom,hfield⟩,hvalue⟩ := hconvert
    rw [hs.shows.size] at hroom
    exact (hsmall hbefore).add hroom hfield hvalue

theorem Operation.Short.fits {op : Operation} (hshort : op.Short h m) : op.Fits h m := by
  cases op with
  | set field value => exact fun hpacked hmem => (hshort hpacked hmem).trans_lt (by decide)
  | erase field => trivial
  | copy => trivial

theorem erase_encoding (h : HashValue) (field : Bytes) :
    (h.erase field).2.encoding=h.encoding := by
  cases h with
  | hashTable table => rfl
  | listPack lp =>
    unfold HashValue.erase
    dsimp only
    cases lp.find field 0 2 with
    | none => rfl
    | some index =>
      dsimp only
      cases lp.eraseRange index 2 <;> rfl

end Set

/-- The stored hash stands for the finite map, which is small while the hash is packed. -/
structure Limited (h : HashValue) (m : FieldMap) : Prop where
  stands : Stands h m
  small : h.encoding=.listPack → Small m

section Limited

variable {h : HashValue} {m : FieldMap}

theorem limited_empty : Limited empty ∅ := ⟨stands_empty,fun _ => small_empty⟩

theorem Limited.set (hl : Limited h m) {field value : Bytes}
    (hshort : (Operation.set field value).Short h m) :
    Limited (h.set field value).2 (m.insert field value) :=
  ⟨(hl.stands.set hshort.fits).2,hl.stands.set_small hl.small hshort⟩

theorem Limited.erase (hl : Limited h m) (field : Bytes) :
    Limited (h.erase field).2 (m.erase field) :=
  ⟨(hl.stands.erase field).2,fun hpacked =>
    (hl.small (erase_encoding h field ▸ hpacked)).erase field⟩

theorem Limited.setAll {es : List (Dict.Entry Bytes)} (hl : Limited h m) (hkeys : es.NodupKeys)
    (hnew : ∀ e∈es,e.1∉m) :
    ∃ m',Limited (es.foldl (fun copied e => (copied.set e.1 e.2).2) h) m' := by
  induction es generalizing h m with
  | nil => exact ⟨m,hl⟩
  | cons e es ih =>
    rw [nodupKeys_cons] at hkeys
    have hshort : (Operation.set e.1 e.2).Short h m := fun _ hmem =>
      absurd hmem (hnew e mem_cons_self)
    refine ih (hl.set hshort) hkeys.2 fun x hx hmem => ?_
    obtain heq | hold := Finmap.mem_insert.mp hmem
    · exact hkeys.1 (heq ▸ mem_keys_of_mem hx)
    · exact hnew x (mem_cons_of_mem e hx) hold

theorem Limited.copy (hl : Limited h m) : Limited h.copy m := by
  obtain ⟨m',hcopied⟩ := limited_empty.setAll hl.stands.ok.nodupKeys fun e _ =>
    Finmap.notMem_empty
  have hsame : m'=m := Finmap.ext_lookup fun field => by
    rw [← hl.stands.copy.same]
    exact (hcopied.stands.same field).symm
  exact ⟨hl.stands.copy,fun hpacked => hsame ▸ hcopied.small hpacked⟩

end Limited

theorem limits_simulates : limits.Simulates Limited Operation.Short where
  sees hl := hl.stands.within_iff.mpr hl.small
  result _ _ := rfl
  next {op h m} hl hshort := by
    cases op with
    | set field value => exact hl.set hshort
    | erase field => exact hl.erase field
    | copy => exact hl.copy

/-- The values of the operation are shorter than 2^32 bytes. -/
def Operation.Storable : Operation → Prop
  | .set _ value => value.length < 2^32
  | .erase _ => True
  | .copy => True

theorem not_within_of_not_short {op : Operation} {h : HashValue} {m : FieldMap}
    (hstorable : op.Storable) (hl : Limited h m) (hshort : ¬op.Short h m) :
    ¬Within (op.step h).2 := by
  cases op with
  | erase field => exact absurd trivial hshort
  | copy => exact absurd trivial hshort
  | set field value =>
    unfold Operation.Short at hshort
    push Not at hshort
    obtain ⟨hpacked,hmem,hlong⟩ := hshort
    have hfits : (Operation.set field value).Fits h m := fun _ _ => hstorable
    have hs := (hl.stands.set hfits).2
    have hstill : (h.set field value).2.encoding=.listPack := by
      cases h with
      | hashTable table => cases hpacked
      | listPack lp =>
        obtain ⟨lp',hset⟩ := set_listPack value hl.stands.ok ((hl.stands.mem_iff field).mp hmem)
        rw [hset]
        rfl
    intro hwithin
    have hfound := (hs.within_iff.mp hwithin hstill).short (Finmap.lookup_insert m)
    omega

/-- **Limits**: every packed hash of a run has at most 512 fields, and fields and values of at
most 64 bytes, if no value of more than 64 bytes replaces the value of a packed field; and, for
values that a listpack can store, only if. -/
theorem packed_limits (ops : List Operation) :
    (limits.Meets Operation.Short ops empty ∅ → limits.Follows ops empty ∅) ∧
      ((∀ op∈ops,op.Storable) → limits.Follows ops empty ∅ →
        limits.Meets Operation.Short ops empty ∅) := by
  constructor
  · exact limits_simulates.follows ops limited_empty
  · intro hstorable
    exact limits_simulates.meets_of_follows (fun hop hl => not_within_of_not_short hop hl) ops
      hstorable limited_empty

theorem packed_limits_replaced :
    limits.Follows [.set [102] [120],.set [102] (replicate 64 0)] empty ∅ := by
  refine (packed_limits _).1 ⟨fun _ hmem => absurd hmem Finmap.notMem_empty,fun _ _ => ?_,trivial⟩
  rw [length_replicate]

/-- A value of 65 bytes for a field that is there. -/
theorem packed_long_value :
    ¬Within ((empty.set [102] [120]).2.set [102] (replicate 65 0)).2 := by
  intro hwithin
  have hvalues := (hwithin (by decide +kernel)).2.2 (replicate 65 0) (by decide +kernel)
  rw [length_replicate] at hvalues
  omega

end Mnemos.HashValue
