import Mnemos.Collections
import Mnemos.IntSet

/-!
# Sets

A set is a sorted array while all members are integers, a listpack while it is
small, and a table otherwise.
-/

namespace Mnemos

open List

/-- Actual `SetValue`. The source keeps all containers and leaves those that the encoding does
not name empty. -/
inductive SetValue where
  | intSet (ints : IntSet)
  | listPack (lp : Listpack)
  | hashTable (table : Dict Bool)

namespace SetValue

def empty : SetValue := .intSet .empty

def encoding : SetValue → ObjEncoding
  | intSet _ => .intSet
  | listPack _ => .listPack
  | hashTable _ => .hashTable

def size : SetValue → ℕ
  | intSet ints => ints.size
  | listPack lp => lp.numElements
  | hashTable table => table.size

def contains (s : SetValue) (member : Bytes) : Bool :=
  match s with
  | intSet ints =>
    match stringToInt64 member with
    | none => false
    | some value => ints.contains value
  | listPack lp => (lp.find member 0 1).isSome
  | hashTable table => (table.peek member).isSome

def members : SetValue → List Bytes
  | intSet ints => ints.values.map intDecimal
  | listPack lp => lp.toStrings
  | hashTable table => table.entries.map fun e => e.1

def packInts (ints : IntSet) : Listpack := ints.values.foldl Listpack.appendInteger .empty

def tableOf (members : List Bytes) : Dict Bool :=
  members.foldl (fun table member => (table.insert member true).1) .init

def convertToListpack : SetValue → SetValue
  | intSet ints => listPack (packInts ints)
  | s => s

def convertToHashTable : SetValue → SetValue
  | hashTable table => hashTable table
  | intSet ints => hashTable (tableOf (ints.values.map intDecimal))
  | listPack lp => hashTable (tableOf lp.toStrings)

def adoptIntSet (ints : IntSet) : SetValue :=
  if defaultLimits.setMaxIntsetEntries < ints.size then
    if ints.size ≤ defaultLimits.setMaxListpackEntries then convertToListpack (intSet ints)
    else convertToHashTable (intSet ints)
  else intSet ints

def adoptListpack (lp : Listpack) : SetValue :=
  if defaultLimits.setMaxListpackEntries < lp.numElements then convertToHashTable (listPack lp)
  else listPack lp

def addToTable (table : Dict Bool) (member : Bytes) : Bool×SetValue :=
  let (existing,table) := table.find member
  if existing.isSome then (false,hashTable table)
  else (true,hashTable (table.insert member true).1)

def addToListpack (lp : Listpack) (member : Bytes) : Bool×SetValue :=
  if (lp.find member 0 1).isSome then (false,listPack lp)
  else if defaultLimits.setMaxListpackEntries ≤ lp.numElements ||
      defaultLimits.setMaxListpackValue < member.length then
    addToTable (tableOf lp.toStrings) member
  else (true,listPack (lp.append member))

def add (s : SetValue) (member : Bytes) : Bool×SetValue :=
  match s with
  | intSet ints =>
    match stringToInt64 member with
    | some value =>
      if ints.contains value then (false,intSet ints)
      else if ints.size < defaultLimits.setMaxIntsetEntries then
        ((ints.add value).1,intSet (ints.add value).2)
      else if ints.size < defaultLimits.setMaxListpackEntries then
        addToListpack (packInts ints) member
      else addToTable (tableOf (ints.values.map intDecimal)) member
    | none =>
      if defaultLimits.setMaxListpackEntries ≤ ints.size ||
          defaultLimits.setMaxListpackValue < member.length then
        addToTable (tableOf (ints.values.map intDecimal)) member
      else addToListpack (packInts ints) member
  | listPack lp => addToListpack lp member
  | hashTable table => addToTable table member

def erase (s : SetValue) (member : Bytes) : Bool×SetValue :=
  match s with
  | intSet ints =>
    match stringToInt64 member with
    | none => (false,intSet ints)
    | some value => ((ints.remove value).1,intSet (ints.remove value).2)
  | listPack lp =>
    match lp.find member 0 1 with
    | none => (false,listPack lp)
    | some index =>
      match lp.eraseAt index with
      | none => (false,listPack lp)
      | some lp => (true,listPack lp)
  | hashTable table => ((table.erase member).2,hashTable (table.erase member).1)

def copy (s : SetValue) : SetValue :=
  s.members.foldl (fun copied member => (copied.add member).2) empty

/-- The invariant: sorted integers, or stored texts without repetition. -/
def Ok : SetValue → Prop
  | intSet ints => ints.Ok
  | listPack lp => ∃ ms : List Bytes,lp.Holds (ms.map elementOf) ∧ ms.Nodup
  | hashTable _ => True

theorem empty_ok : empty.Ok := IntSet.empty_ok

variable {s : SetValue} {ms : List Bytes} {lp : Listpack} {ints : IntSet}

theorem members_listPack (h : lp.Holds (ms.map elementOf)) :
    (listPack lp).members=ms := by
  rw [members,h.toStrings,Listpack.map_toString_elementOf]

theorem mem_members_hashTable (table : Dict Bool) (m : Bytes) :
    m∈(hashTable table).members ↔ (table.lookup m).isSome=true := by
  rw [Dict.lookup,dlookup_isSome]
  rfl

theorem mem_members_intSet (h : ints.Ok) (m : Bytes) :
    m∈(intSet ints).members ↔ ∃ value,stringToInt64 m=some value ∧ value∈ints.values := by
  rw [members,mem_map]
  constructor
  · rintro ⟨v,hv,rfl⟩
    exact ⟨v,stringToInt64_intDecimal (h.fits64 hv),hv⟩
  · rintro ⟨v,hparse,hv⟩
    exact ⟨v,hv,(stringToInt64_eq_some.mp hparse).1.symm⟩

theorem Ok.nodup (hok : s.Ok) : s.members.Nodup := by
  cases s with
  | intSet ints =>
    have hints : ints.Ok := hok
    refine Nodup.map_on (fun a ha b hb => intDecimal_inj) ?_
    exact hints.sorted.imp fun h => ne_of_lt h
  | listPack lp =>
    obtain ⟨ms,hholds,hms⟩ := hok
    rw [members_listPack hholds]
    exact hms
  | hashTable table => exact table.entries_nodupKeys

theorem Ok.contains_iff (hok : s.Ok) (m : Bytes) :
    s.contains m=true ↔ m∈s.members := by
  cases s with
  | intSet ints =>
    have hints : ints.Ok := hok
    rw [mem_members_intSet hints,contains]
    cases stringToInt64 m with
    | none => simp
    | some v => simp [hints.contains_iff]
  | listPack lp =>
    obtain ⟨ms,hholds,hms⟩ := hok
    rw [members_listPack hholds,contains,hholds.find]
    have hmem : elementOf m∈ms.map elementOf ↔ m∈ms := by
      rw [mem_map]
      exact ⟨fun ⟨x,hx,he⟩ => elementOf_injective he ▸ hx,fun h => ⟨m,h,rfl⟩⟩
    rcases Listpack.findIn_singles (elementOf m) (ms.map elementOf) 0 with
      ⟨before,after,hsplit,-,hfind⟩ | ⟨hnone,hfind⟩
    · rw [hfind,← hmem,hsplit]
      simp
    · rw [hfind,← hmem]
      simp [hnone]
  | hashTable table =>
    rw [mem_members_hashTable,contains,Dict.peek_eq]

theorem packInts_holds (h : ints.Ok) :
    (packInts ints).Holds ((ints.values.map intDecimal).map elementOf) := by
  have hgen : ∀ (vs : List ℤ) (lp : Listpack) (es : List Element),
      (∀ v∈vs,FitsSigned 64 v) → lp.Holds es →
      (vs.foldl Listpack.appendInteger lp).Holds (es++(vs.map intDecimal).map elementOf) := by
    intro vs
    induction vs with
    | nil =>
      intro lp es _ hholds
      rw [map_nil,map_nil,append_nil]
      exact hholds
    | cons v vs ih =>
      intro lp es hfits hholds
      have hv := hfits v mem_cons_self
      have helem : elementOf (intDecimal v)=.integer v := by
        rw [elementOf,stringToInt64_intDecimal hv]
      have hrest := ih (lp.appendInteger v) (es++[.integer v])
        (fun w hw => hfits w (mem_cons_of_mem v hw)) (hholds.appendInteger hv)
      rw [foldl_cons,map_cons,map_cons,helem]
      rwa [append_assoc] at hrest
  have hall := hgen ints.values .empty [] (fun v hv => h.fits64 hv) Listpack.holds_empty
  rwa [nil_append] at hall

theorem lookup_tableOf (ms : List Bytes) (m : Bytes) :
    ((tableOf ms).lookup m).isSome=true ↔ m∈ms := by
  have hgen : ∀ (ms : List Bytes) (table : Dict Bool),
      ((ms.foldl (fun table member => (table.insert member true).1) table).lookup m).isSome=true ↔
        m∈ms ∨ (table.lookup m).isSome=true := by
    intro ms
    induction ms with
    | nil =>
      intro table
      simp
    | cons a ms ih =>
      intro table
      rw [foldl_cons,ih,Dict.lookup_insert]
      by_cases ha : m=a
      · simp [ha]
      · simp [ha]
  rw [tableOf,hgen,Dict.lookup_init]
  simp

theorem addToTable_spec (table : Dict Bool) (member : Bytes) :
    (addToTable table member).2.Ok ∧
      (∀ m,m∈(addToTable table member).2.members ↔ m=member ∨ (table.lookup m).isSome=true) ∧
      ((addToTable table member).1=true ↔ ¬ (table.lookup member).isSome=true) := by
  unfold addToTable
  dsimp only
  rw [Dict.find_fst]
  by_cases hin : (table.lookup member).isSome=true
  · rw [if_pos hin]
    refine ⟨trivial,fun m => ?_,by simp [hin]⟩
    rw [mem_members_hashTable,Dict.lookup_find]
    constructor
    · exact .inr
    · rintro (rfl | h)
      · exact hin
      · exact h
  · rw [if_neg hin]
    refine ⟨trivial,fun m => ?_,by simp [hin]⟩
    rw [mem_members_hashTable,Dict.lookup_insert,Dict.lookup_find]
    by_cases hm : m=member
    · simp [hm]
    · simp [hm]

theorem addToListpack_spec (hholds : lp.Holds (ms.map elementOf)) (hms : ms.Nodup)
    (member : Bytes) :
    (addToListpack lp member).2.Ok ∧
      (∀ m,m∈(addToListpack lp member).2.members ↔ m=member ∨ m∈ms) ∧
      ((addToListpack lp member).1=true ↔ member∉ms) := by
  have hcontains := Ok.contains_iff (s := listPack lp) ⟨ms,hholds,hms⟩ member
  rw [members_listPack hholds,contains] at hcontains
  unfold addToListpack
  by_cases hin : member∈ms
  · rw [if_pos (hcontains.mpr hin)]
    refine ⟨⟨ms,hholds,hms⟩,fun m => ?_,by simp [hin]⟩
    rw [members_listPack hholds]
    constructor
    · exact .inr
    · rintro (rfl | h)
      · exact hin
      · exact h
  · rw [if_neg (fun hc => hin (hcontains.mp hc))]
    split
    · have hspec := addToTable_spec (tableOf lp.toStrings) member
      have htexts : lp.toStrings=ms := members_listPack hholds
      simp only [htexts,lookup_tableOf] at hspec ⊢
      exact hspec
    · rename_i hsmall
      simp only [Bool.or_eq_true,decide_eq_true_eq,not_or,not_lt] at hsmall
      have hlimit : defaultLimits.setMaxListpackValue=64 := rfl
      have hholds' := hholds.append (by omega : member.length < 2^32)
      rw [← map_singleton,← map_append] at hholds'
      refine ⟨⟨_,hholds',?_⟩,fun m => ?_,by simp [hin]⟩
      · rw [nodup_append]
        refine ⟨hms,nodup_singleton member,fun a ha b hb => ?_⟩
        rw [mem_singleton.mp hb]
        rintro rfl
        exact hin ha
      · dsimp only
        rw [members_listPack hholds',mem_append,mem_singleton]
        exact or_comm

theorem Ok.add (hok : s.Ok) (member : Bytes) :
    (s.add member).2.Ok ∧ (∀ m,m∈(s.add member).2.members ↔ m=member ∨ m∈s.members) ∧
      ((s.add member).1=true ↔ member∉s.members) := by
  cases s with
  | hashTable table =>
    have hspec := addToTable_spec table member
    simp only [← mem_members_hashTable] at hspec
    exact hspec
  | listPack lp =>
    obtain ⟨ms,hholds,hms⟩ := hok
    rw [members_listPack hholds]
    exact addToListpack_spec hholds hms member
  | intSet ints =>
    have hints : ints.Ok := hok
    have hnodup : (ints.values.map intDecimal).Nodup := Ok.nodup (s := intSet ints) hok
    have hpack := addToListpack_spec (packInts_holds hints) hnodup member
    have htable := addToTable_spec (tableOf (ints.values.map intDecimal)) member
    simp only [lookup_tableOf] at htable
    have hcontains := hok.contains_iff member
    unfold SetValue.add
    dsimp only
    cases hparse : stringToInt64 member with
    | none =>
      dsimp only
      split
      · exact htable
      · exact hpack
    | some value =>
      dsimp only
      have hprint := stringToInt64_eq_some.mp hparse
      rw [contains,hparse] at hcontains
      dsimp only at hcontains
      split
      · rename_i hin
        have hmem := hcontains.mp hin
        refine ⟨hok,fun m => ⟨.inr,?_⟩,by simp [hmem]⟩
        rintro (rfl | h)
        · exact hmem
        · exact h
      · rename_i hout
        have hnot : member∉(intSet ints).members := fun h => hout (hcontains.mpr h)
        split
        · obtain ⟨hok',hvalues,hnew⟩ := hints.add hprint.2
          refine ⟨hok',fun m => ?_,?_⟩
          · simp only [members,mem_map,hvalues]
            constructor
            · rintro ⟨v,rfl | hv,rfl⟩
              · exact .inl hprint.1.symm
              · exact .inr ⟨v,hv,rfl⟩
            · rintro (rfl | ⟨v,hv,rfl⟩)
              · exact ⟨value,.inl rfl,hprint.1.symm⟩
              · exact ⟨v,.inr hv,rfl⟩
          · rw [hnew]
            refine ⟨fun _ => hnot,fun _ hin => hnot ?_⟩
            exact (mem_members_intSet hints member).mpr ⟨value,hparse,hin⟩
        · split
          · exact hpack
          · exact htable

theorem Ok.erase (hok : s.Ok) (member : Bytes) :
    (s.erase member).2.Ok ∧ (∀ m,m∈(s.erase member).2.members ↔ m≠member ∧ m∈s.members) ∧
      ((s.erase member).1=true ↔ member∈s.members) := by
  have hkeep : member∉s.members → ∀ m,m∈s.members ↔ m≠member ∧ m∈s.members := by
    intro hnot m
    refine ⟨fun h => ⟨?_,h⟩,fun h => h.2⟩
    rintro rfl
    exact hnot h
  cases s with
  | hashTable table =>
    refine ⟨trivial,fun m => ?_,?_⟩
    · simp only [SetValue.erase,mem_members_hashTable,Dict.lookup_erase]
      by_cases hm : m=member
      · simp [hm]
      · simp [hm]
    · simp only [SetValue.erase,Dict.erase_snd,mem_members_hashTable]
  | listPack lp =>
    obtain ⟨ms,hholds,hms⟩ := hok
    have hmembers := members_listPack hholds
    rw [hmembers] at hkeep ⊢
    unfold SetValue.erase
    dsimp only
    rw [hholds.find]
    rcases Listpack.findIn_singles (elementOf member) (ms.map elementOf) 0 with
      ⟨before,after,hsplit,-,hfind⟩ | ⟨hnone,hfind⟩
    · rw [map_eq_append_iff] at hsplit
      obtain ⟨ms₁,ms₂,rfl,rfl,hms₂⟩ := hsplit
      rw [map_eq_cons_iff] at hms₂
      obtain ⟨m',ms₃,rfl,hm',rfl⟩ := hms₂
      have hmem : m'=member := elementOf_injective hm'
      subst hmem
      have hrange : ms₁.length+1 ≤ ((ms₁++m'::ms₃).map elementOf).length := by simp
      obtain ⟨lp',herase,hholds'⟩ := hholds.eraseRange Nat.one_pos hrange
      have hstored : ((ms₁++m'::ms₃).map elementOf).take ms₁.length++
          ((ms₁++m'::ms₃).map elementOf).drop (ms₁.length+1)=(ms₁++ms₃).map elementOf := by
        have hlen : (ms₁.map elementOf).length=ms₁.length := length_map _
        rw [map_append,map_cons,take_left' hlen,← drop_drop,
          drop_left' hlen,map_append]
        rfl
      rw [hstored] at hholds'
      rw [hfind,length_map,Nat.zero_add]
      dsimp only [Listpack.eraseAt]
      rw [herase]
      dsimp only
      rw [members_listPack hholds']
      rw [nodup_append,nodup_cons] at hms
      refine ⟨⟨_,hholds',nodup_append.mpr ⟨hms.1,hms.2.1.2,fun a ha b hb =>
        hms.2.2 a ha b (mem_cons_of_mem m' hb)⟩⟩,fun m => ?_,by simp⟩
      simp only [mem_append,mem_cons]
      constructor
      · rintro (h | h)
        · exact ⟨fun he => hms.2.2 m h m' mem_cons_self he,.inl h⟩
        · exact ⟨fun he => hms.2.1.1 (he ▸ h),.inr (.inr h)⟩
      · rintro ⟨hne,h | h | h⟩
        · exact .inl h
        · exact absurd h hne
        · exact .inr h
    · have hnot : member∉ms := fun h => hnone (mem_map_of_mem h)
      rw [hfind]
      dsimp only
      rw [hmembers]
      exact ⟨⟨ms,hholds,hms⟩,hkeep hnot,by simp [hnot]⟩
  | intSet ints =>
    have hints : ints.Ok := hok
    have hmember := mem_members_intSet hints member
    unfold SetValue.erase
    dsimp only
    cases hparse : stringToInt64 member with
    | none =>
      have hnot : member∉(intSet ints).members := by
        rw [hmember,hparse]
        simp
      exact ⟨hok,hkeep hnot,by simp [hnot]⟩
    | some value =>
      obtain ⟨hok',hvalues,hwas⟩ := hints.remove value
      have hprint := stringToInt64_eq_some.mp hparse
      refine ⟨hok',fun m => ?_,?_⟩
      · simp only [members,mem_map,hvalues]
        constructor
        · rintro ⟨v,⟨hne,hv⟩,rfl⟩
          refine ⟨fun he => hne ?_,v,hv,rfl⟩
          exact intDecimal_inj (he.trans hprint.1)
        · rintro ⟨hne,v,hv,rfl⟩
          exact ⟨v,⟨fun he => hne (he ▸ hprint.1.symm),hv⟩,rfl⟩
      · dsimp only
        rw [hwas,hmember,hparse]
        simp

theorem Ok.addAll (ms : List Bytes) (hok : s.Ok) :
    (ms.foldl (fun copied member => (copied.add member).2) s).Ok ∧
      ∀ m,m∈(ms.foldl (fun copied member => (copied.add member).2) s).members ↔
        m∈ms ∨ m∈s.members := by
  induction ms generalizing s with
  | nil => exact ⟨hok,fun m => by simp⟩
  | cons a ms ih =>
    obtain ⟨hok',hmem,-⟩ := hok.add a
    obtain ⟨hres,hall⟩ := ih hok'
    refine ⟨hres,fun m => ?_⟩
    rw [foldl_cons,hall,hmem,mem_cons]
    tauto

theorem Ok.members_perm {s s' : SetValue} (hok : s.Ok) (hok' : s'.Ok)
    (hsame : ∀ m,m∈s.members ↔ m∈s'.members) : s.members ~ s'.members :=
  (perm_ext_iff_of_nodup hok.nodup hok'.nodup).mpr hsame

theorem Ok.size (hok : s.Ok) : s.size=s.members.length := by
  cases s with
  | intSet ints => exact (length_map _).symm
  | hashTable table =>
    rw [SetValue.size,table.size_eq,members,length_map]
  | listPack lp =>
    obtain ⟨ms,hholds,-⟩ := hok
    rw [SetValue.size,hholds.numElements,members_listPack hholds,length_map]

theorem mem_members_tableOf (ms : List Bytes) (m : Bytes) :
    m∈(hashTable (tableOf ms)).members ↔ m∈ms := by
  rw [mem_members_hashTable,lookup_tableOf]

theorem adoptIntSet_ok (h : ints.Ok) :
    (adoptIntSet ints).Ok ∧ ∀ m,m∈(adoptIntSet ints).members ↔ m∈(intSet ints).members := by
  rw [adoptIntSet]
  split
  · split
    · have hholds := packInts_holds h
      have hnodup : (ints.values.map intDecimal).Nodup := Ok.nodup (s := intSet ints) h
      exact ⟨⟨_,hholds,hnodup⟩,fun m => by rw [convertToListpack,members_listPack hholds]; rfl⟩
    · exact ⟨trivial,fun m => mem_members_tableOf _ m⟩
  · exact ⟨h,fun m => Iff.rfl⟩

theorem adoptListpack_ok (hholds : lp.Holds (ms.map elementOf)) (hnodup : ms.Nodup) :
    (adoptListpack lp).Ok ∧ ∀ m,m∈(adoptListpack lp).members ↔ m∈ms := by
  rw [adoptListpack]
  split
  · refine ⟨trivial,fun m => ?_⟩
    rw [convertToHashTable,mem_members_tableOf,hholds.toStrings,Listpack.map_toString_elementOf]
  · exact ⟨⟨ms,hholds,hnodup⟩,fun m => by rw [members_listPack hholds]⟩

end SetValue

end Mnemos
