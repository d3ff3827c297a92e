import Mathlib.Data.List.Sigma
import Mnemos.BitReversal
import Mnemos.Bytes

/-!
# The incrementally rehashed table of `core/dict.h`

Two bucket tables stay live during a rehash. Every `find`, `insert` and `erase`
first migrates at most one bucket, new keys enter table 1 while a rehash runs,
and a table grows at load factor one and shrinks below a tenth.
-/

namespace Mnemos.Dict

/-- One chained entry: its key and its value. The chain link is the position in
the bucket's list. -/
abbrev Entry (T : Type) := Σ _ : Bytes, T

structure Table (T : Type) where
  buckets : List (List (Entry T))
  used : ℕ
deriving DecidableEq

structure DictState (T : Type) where
  table0 : Table T
  table1 : Table T
  /-- Actual `rehash_index_`; negative when no rehash runs. -/
  rehashIndex : ℤ
deriving DecidableEq

def initialSize : ℕ := 4

def hash (key : Bytes) : UInt64 :=
  key.foldl (fun h c => (h ^^^ c.toUInt64)*1099511628211) 1469598103934665603

/-- One line of `reverseBits`: exchange neighbouring groups of `s` bits. -/
def swapGroups (s m v : UInt64) : UInt64 := ((v >>> s) &&& m) ||| ((v &&& m) <<< s)

def reverseBits (v : UInt64) : UInt64 :=
  let v := swapGroups 1 0x5555555555555555 v
  let v := swapGroups 2 0x3333333333333333 v
  let v := swapGroups 4 0x0F0F0F0F0F0F0F0F v
  let v := swapGroups 8 0x00FF00FF00FF00FF v
  let v := swapGroups 16 0x0000FFFF0000FFFF v
  (v >>> 32) ||| (v <<< 32)

section Tables

variable {T : Type}

def Table.size (t : Table T) : ℕ := t.buckets.length

def Table.mask (t : Table T) : UInt64 := UInt64.ofNat t.size-1

def Table.slot (t : Table T) (h : UInt64) : ℕ := (h &&& t.mask).toNat

def Table.bucket (t : Table T) (i : ℕ) : List (Entry T) := t.buckets.getD i []

def Table.entries (t : Table T) : List (Entry T) := t.buckets.flatten

def Table.setBucket (t : Table T) (i : ℕ) (chain : List (Entry T)) : Table T :=
  { t with buckets := t.buckets.set i chain }

def Table.push (t : Table T) (e : Entry T) : Table T :=
  ⟨t.buckets.set (t.slot (hash e.1)) (e::t.bucket (t.slot (hash e.1))),t.used+1⟩

def Table.none : Table T := ⟨[],0⟩

def Table.fresh (n : ℕ) : Table T := ⟨List.replicate n [],0⟩

end Tables

namespace DictState

variable {T : Type}

/-- Default-constructed dict, also the state `clear()` leaves. -/
def init : DictState T := ⟨Table.fresh initialSize,Table.none,-1⟩

def size (d : DictState T) : ℕ := d.table0.used+d.table1.used

def empty (d : DictState T) : Bool := d.size==0

def isRehashing (d : DictState T) : Bool := decide (0 ≤ d.rehashIndex)

/-- Every entry, in the order `forEach` visits both tables. -/
def entries (d : DictState T) : List (Entry T) := d.table0.entries++d.table1.entries

/-- Skip empty buckets from `idx` on, where `rest` is what follows in the table.
The flag says that the visit budget ran out, which returns from the caller. -/
def skipEmpty : List (List (Entry T)) → ℕ → ℤ → ℕ×ℤ×Bool
  | [],idx,visits => (idx,visits,false)
  | chain::rest,idx,visits =>
    if chain.isEmpty then
      if visits-1=0 then (idx+1,visits-1,true) else skipEmpty rest (idx+1) (visits-1)
    else (idx,visits,false)

def moveEntry (d : DictState T) (e : Entry T) : DictState T :=
  { d with table0 := { d.table0 with used := d.table0.used-1 }, table1 := d.table1.push e }

def moveBucket (d : DictState T) : DictState T :=
  let i := d.rehashIndex.toNat
  let d := (d.table0.bucket i).foldl moveEntry d
  { d with table0 := d.table0.setBucket i [], rehashIndex := d.rehashIndex+1 }

/-- Outer loop of `rehashSteps`; the flag is an early `return true`. -/
def rehashLoop : ℕ → ℤ → DictState T → DictState T×Bool
  | 0,_,d => (d,false)
  | buckets+1,visits,d =>
    if 0 < d.table0.used then
      match skipEmpty (d.table0.buckets.drop d.rehashIndex.toNat) d.rehashIndex.toNat visits with
      | (i,_,true) => ({ d with rehashIndex := i },true)
      | (i,visits,false) =>
        if d.table0.size ≤ i then ({ d with rehashIndex := i },false)
        else rehashLoop buckets visits (moveBucket { d with rehashIndex := i })
    else (d,false)

/-- Performs up to `buckets` migration steps; true while more remain. -/
def rehashSteps (d : DictState T) (buckets : ℤ) : DictState T×Bool :=
  if d.isRehashing then
    match rehashLoop buckets.toNat (buckets*10) d with
    | (d,true) => (d,true)
    | (d,false) =>
      if d.table0.used=0 then (⟨d.table1,Table.none,-1⟩,false) else (d,true)
  else (d,false)

def rehashStep (d : DictState T) : DictState T :=
  if d.isRehashing then (d.rehashSteps 1).1 else d

def search (d : DictState T) (key : Bytes) : Option T :=
  match (d.table0.bucket (d.table0.slot (hash key))).dlookup key with
  | some v => some v
  | none =>
    if d.isRehashing then (d.table1.bucket (d.table1.slot (hash key))).dlookup key else none

/-- With the dict its migration step leaves. -/
def find (d : DictState T) (key : Bytes) : Option T×DictState T :=
  if d.empty then (none,d) else (d.rehashStep.search key,d.rehashStep)

/-- Write through the pointer a successful `find` returned. -/
def assign (d : DictState T) (key : Bytes) (value : T) : DictState T :=
  let i := d.table0.slot (hash key)
  let j := d.table1.slot (hash key)
  if ((d.table0.bucket i).dlookup key).isSome then
    { d with table0 := d.table0.setBucket i ((d.table0.bucket i).kreplace key value) }
  else
    { d with table1 := d.table1.setBucket j ((d.table1.bucket j).kreplace key value) }

def resizeTo (d : DictState T) (n : ℕ) : DictState T :=
  { d with table1 := Table.fresh n, rehashIndex := 0 }

def nextPowerLoop : ℕ → ℕ → ℕ → ℕ
  | 0,p,_ => p
  | fuel+1,p,n => if p < n then nextPowerLoop fuel (p*2) n else p

/-- `n` doublings always suffice. -/
def nextPowerOfTwo (n : ℕ) : ℕ := nextPowerLoop n initialSize n

def expandIfNeeded (d : DictState T) : DictState T :=
  if d.isRehashing then d
  else if d.table0.used < d.table0.size then d
  else d.resizeTo (d.table0.size*2)

def shrinkIfNeeded (d : DictState T) : DictState T :=
  if d.isRehashing then d
  else if d.table0.size ≤ initialSize then d
  else if d.table0.size < d.table0.used*10 then d
  else d.resizeTo (max initialSize (nextPowerOfTwo (d.table0.used+1)))

def link (d : DictState T) (e : Entry T) : DictState T :=
  if d.isRehashing then { d with table1 := d.table1.push e }
  else { d with table0 := d.table0.push e }

def insert (d : DictState T) (key : Bytes) (value : T) : DictState T×Bool :=
  match d.rehashStep.find key with
  | (some _,d) => (d.assign key value,false)
  | (none,d) => (d.expandIfNeeded.link ⟨key,value⟩,true)

def erase (d : DictState T) (key : Bytes) : DictState T×Bool :=
  if d.empty then (d,false) else
  let d := d.rehashStep
  let i := d.table0.slot (hash key)
  let j := d.table1.slot (hash key)
  if ((d.table0.bucket i).dlookup key).isSome then
    (shrinkIfNeeded { d with table0 :=
      ⟨d.table0.buckets.set i ((d.table0.bucket i).kerase key),d.table0.used-1⟩ },true)
  else if d.isRehashing && ((d.table1.bucket j).dlookup key).isSome then
    (shrinkIfNeeded { d with table1 :=
      ⟨d.table1.buckets.set j ((d.table1.bucket j).kerase key),d.table1.used-1⟩ },true)
  else (d,false)

end DictState

end Mnemos.Dict

/-! ## The table as a finite map -/

open List

namespace Mnemos.Dict

open BitReversal
variable {T : Type}

structure Table.Ok (t : Table T) : Prop where
  power : ∃ k, 2 ≤ k ∧ t.size=2^k
  placed : ∀ i, ∀ e∈t.bucket i, t.slot (hash e.1)=i
  counted : t.used=t.entries.length

structure DictState.Valid (d : DictState T) : Prop where
  table0 : d.table0.Ok
  idle : d.rehashIndex < 0 → d.table1=Table.none
  active : 0 ≤ d.rehashIndex → d.table1.Ok
  swept : ∀ i : ℕ, (i : ℤ) < d.rehashIndex → d.table0.bucket i=[]
  distinct : d.entries.NodupKeys

variable {t : Table T}

theorem Table.mask_toBitVec {k : ℕ} (hk : t.size=2^k) :
    t.mask.toBitVec=lowMask 64 (min k 64) := by
  apply BitVec.eq_of_toNat_eq
  rw [Table.mask,UInt64.toBitVec_sub,BitVec.toNat_sub,lowMask,BitVec.toNat_ofNat,hk]
  have h1 : (1 : UInt64).toBitVec.toNat=1 := rfl
  have h2 : (UInt64.ofNat (2^k)).toBitVec.toNat=2^k%2^64 := rfl
  rw [h1,h2]
  by_cases h : k < 64
  · have hp : 2^k < 2^64 := Nat.pow_lt_pow_right (by decide) h
    have hpos : 0 < 2^k := Nat.two_pow_pos k
    rw [min_eq_left h.le,Nat.mod_eq_of_lt hp]
    omega
  · have hz : 2^k%2^64=0 := Nat.mod_eq_zero_of_dvd (Nat.pow_dvd_pow 2 (Nat.le_of_not_lt h))
    rw [min_eq_right (Nat.le_of_not_lt h),hz]
    rfl

theorem Table.slot_lt {k : ℕ} (hk : t.size=2^k) (h : UInt64) :
    t.slot h < t.size := by
  have hmask := congrArg BitVec.toNat (t.mask_toBitVec hk)
  have hand : (h &&& t.mask).toNat ≤ t.mask.toNat := by
    rw [UInt64.toNat_and]
    exact Nat.and_le_right
  rw [lowMask,BitVec.toNat_ofNat] at hmask
  have hlow : 2^min k 64-1 < 2^64 :=
    lt_of_lt_of_le (Nat.sub_lt (Nat.two_pow_pos _) Nat.one_pos)
      (Nat.pow_le_pow_right (by decide) (min_le_right _ _))
  rw [Nat.mod_eq_of_lt hlow] at hmask
  have hle : 2^min k 64 ≤ 2^k := Nat.pow_le_pow_right (by decide) (min_le_left _ _)
  have hpos : 0 < 2^min k 64 := Nat.two_pow_pos _
  have hm : t.mask.toNat=2^min k 64-1 := hmask
  rw [Table.slot,hk]
  omega

def Table.others (t : Table T) (i : ℕ) : List (Entry T) :=
  (t.buckets.take i).flatten++(t.buckets.drop (i+1)).flatten

variable {key : Bytes} {i : ℕ}

theorem Table.setBucket_entries (hi : i < t.size) (chain : List (Entry T)) :
    (t.setBucket i chain).entries ~ chain++t.others i := by
  have hl : i < t.buckets.length := hi
  rw [Table.entries,Table.setBucket,set_eq_take_append_cons_drop,if_pos hl,
    flatten_append,flatten_cons,Table.others]
  exact perm_append_comm_assoc _ _ _

theorem Table.entries_split (hi : i < t.size) :
    t.entries ~ t.bucket i++t.others i := by
  have hl : i < t.buckets.length := hi
  have hset : t.setBucket i (t.bucket i)=t := by
    rw [Table.setBucket,Table.bucket,getD_eq_getElem _ _ hl,set_getElem_self]
  have h := t.setBucket_entries hi (t.bucket i)
  rwa [hset] at h

theorem Table.mem_entries {e : Entry T} :
    e∈t.entries ↔ ∃ i < t.size, e∈t.bucket i := by
  rw [Table.entries,mem_flatten]
  constructor
  · rintro ⟨chain,hc,he⟩
    obtain ⟨i,hi,rfl⟩ := getElem_of_mem hc
    exact ⟨i,hi,by rwa [Table.bucket,getD_eq_getElem _ _ hi]⟩
  · rintro ⟨i,hi,he⟩
    rw [Table.bucket,getD_eq_getElem _ _ hi] at he
    exact ⟨_,getElem_mem hi,he⟩

theorem Table.others_slot (ht : t.Ok) {e : Entry T} (he : e∈t.others i) :
    t.slot (hash e.1)≠i := by
  have hbucket : ∃ j, j≠i ∧ e∈t.bucket j := by
    rw [Table.others,mem_append,mem_flatten,mem_flatten] at he
    obtain ⟨chain,hc,hm⟩ | ⟨chain,hc,hm⟩ := he
    · obtain ⟨j,hj,rfl⟩ := getElem_of_mem hc
      rw [length_take] at hj
      refine ⟨j,by omega,?_⟩
      rw [getElem_take] at hm
      rwa [Table.bucket,getD_eq_getElem _ _ (by omega)]
    · obtain ⟨j,hj,rfl⟩ := getElem_of_mem hc
      rw [length_drop] at hj
      refine ⟨i+1+j,by omega,?_⟩
      rw [getElem_drop] at hm
      rwa [Table.bucket,getD_eq_getElem _ _ (by omega)]
  obtain ⟨j,hji,hj⟩ := hbucket
  rw [ht.placed j e hj]
  exact hji

theorem Table.others_key (ht : t.Ok) (key : Bytes) :
    key∉(t.others (t.slot (hash key))).keys := by
  intro hmem
  obtain ⟨v,hv⟩ := mem_keys.mp hmem
  exact t.others_slot ht hv rfl

theorem Table.dlookup_bucket (ht : t.Ok) (hd : t.entries.NodupKeys) (key : Bytes) :
    (t.bucket (t.slot (hash key))).dlookup key=t.entries.dlookup key := by
  obtain ⟨k,-,hk⟩ := ht.power
  rw [perm_dlookup key hd (t.entries_split (t.slot_lt hk (hash key))),dlookup_append,
    dlookup_eq_none.mpr (t.others_key ht key),Option.or_none]

theorem Table.bucket_setBucket (hi : i < t.size) (chain : List (Entry T)) (j : ℕ) :
    (t.setBucket i chain).bucket j=if j=i then chain else t.bucket j := by
  simp only [Table.bucket,Table.setBucket,getD_eq_getElem?_getD,getElem?_set]
  by_cases h : i=j
  · subst h
    have hl : i < t.buckets.length := hi
    simp [hl]
  · rw [if_neg h,if_neg (Ne.symm h)]

/-- A replacement whose entries hash to the bucket keeps a table placed, with any counter
that counts. -/
theorem Table.ok_setBucket (ht : t.Ok) (hi : i < t.size) {chain : List (Entry T)}
    (hc : ∀ e∈chain, t.slot (hash e.1)=i) {n : ℕ} (hn : n=(chain++t.others i).length) :
    Table.Ok { t.setBucket i chain with used := n } := by
  have hsize : (t.setBucket i chain).size=t.size := by
    simp [Table.size,Table.setBucket]
  have hslot : ∀ h, ({ t.setBucket i chain with used := n } : Table T).slot h=t.slot h := by
    intro h
    simp only [Table.slot,Table.mask]
    change (h &&& (UInt64.ofNat (t.setBucket i chain).size-1)).toNat=_
    rw [hsize]
  refine ⟨?_,?_,?_⟩
  · obtain ⟨k,hk,hs⟩ := ht.power
    exact ⟨k,hk,hsize.trans hs⟩
  · intro j e he
    rw [hslot]
    have hb := t.bucket_setBucket hi chain j
    change e∈(t.setBucket i chain).bucket j at he
    rw [hb] at he
    by_cases hj : j=i
    · rw [if_pos hj] at he
      exact (hc e he).trans hj.symm
    · rw [if_neg hj] at he
      exact ht.placed j e he
  · exact hn.trans (t.setBucket_entries hi chain).length_eq.symm

theorem Table.push_ok (ht : t.Ok) (e : Entry T) :
    (t.push e).Ok ∧ (t.push e).entries ~ e::t.entries := by
  obtain ⟨k,-,hk⟩ := ht.power
  have hi := t.slot_lt hk (hash e.1)
  have hsplit := t.entries_split hi
  constructor
  · apply t.ok_setBucket ht hi
    · intro x hx
      rcases mem_cons.mp hx with rfl | hx
      · rfl
      · exact ht.placed _ x hx
    · rw [ht.counted,hsplit.length_eq]
      simp
  · exact (t.setBucket_entries hi _).trans (hsplit.symm.cons e)

theorem Table.fresh_ok {n k : ℕ} (hk : 2 ≤ k) (hn : n=2^k) :
    (Table.fresh n : Table T).Ok ∧ (Table.fresh n : Table T).entries=[] := by
  have hempty : (Table.fresh n : Table T).entries=[] := by
    simp [Table.entries,Table.fresh]
  refine ⟨⟨⟨k,hk,by simp [Table.size,Table.fresh,hn]⟩,?_,by rw [hempty]; rfl⟩,hempty⟩
  intro i e he
  have hb : (Table.fresh n : Table T).bucket i=[] := by
    simp only [Table.bucket,Table.fresh,getD_eq_getElem?_getD,getElem?_replicate]
    split <;> rfl
  rw [hb] at he
  exact absurd he not_mem_nil

theorem kreplace_append {l₁ l₂ : List (Entry T)} (value : T) (h : key∉l₂.keys) :
    (l₁++l₂).kreplace key value=l₁.kreplace key value++l₂ := by
  induction l₁ with
  | nil =>
    have hsame : l₂.kreplace key value=l₂ :=
      kreplace_of_forall_not (β := fun _ => T) key value (notMem_keys.mp h)
    rw [nil_append,hsame]
    rfl
  | cons e l₁ ih =>
    simp only [List.kreplace,cons_append] at ih ⊢
    by_cases he : key=e.1
    · rw [lookmap_cons_some (b := ⟨key,value⟩) _ _ (by simp [he]),
        lookmap_cons_some (b := ⟨key,value⟩) _ _ (by simp [he])]
      rfl
    · rw [lookmap_cons_none _ _ (by simp [he]),lookmap_cons_none _ _ (by simp [he]),ih]
      rfl

theorem dlookup_kreplace {l : List (Entry T)} (value : T) (h : key∈l.keys) (k : Bytes) :
    (l.kreplace key value).dlookup k=
      if k=key then some value else l.dlookup k := by
  induction l with
  | nil => exact absurd h not_mem_nil
  | cons e l ih =>
    simp only [List.kreplace] at ih ⊢
    obtain ⟨ek,ev⟩ := e
    by_cases he : key=ek
    · subst he
      rw [lookmap_cons_some (b := ⟨key,value⟩) _ _ (by simp)]
      by_cases hk : k=key
      · subst hk
        rw [dlookup_cons_eq,if_pos rfl]
      · rw [dlookup_cons_ne _ _ hk,dlookup_cons_ne _ _ hk,if_neg hk]
    · rw [lookmap_cons_none _ _ (by simp [he])]
      have hmem : key∈l.keys := by
        rcases mem_cons.mp h with h | h
        · exact absurd h he
        · exact h
      by_cases hk : k=ek
      · subst hk
        rw [dlookup_cons_eq,dlookup_cons_eq,if_neg (Ne.symm he)]
      · rw [dlookup_cons_ne _ _ hk,dlookup_cons_ne _ _ hk,ih hmem]

theorem Table.entries_kreplace (ht : t.Ok) (hd : t.entries.NodupKeys) (key : Bytes) (value : T) :
    let t' := t.setBucket (t.slot (hash key)) ((t.bucket (t.slot (hash key))).kreplace key value)
    t'.Ok ∧ t'.entries ~ t.entries.kreplace key value := by
  obtain ⟨k,-,hk⟩ := ht.power
  have hi := t.slot_lt hk (hash key)
  have hsplit := t.entries_split hi
  have hkeys := keys_kreplace key value (t.bucket (t.slot (hash key)))
  have hlen : ((t.bucket (t.slot (hash key))).kreplace key value).length=
      (t.bucket (t.slot (hash key))).length := by
    have h := congrArg List.length hkeys
    simpa [List.keys] using h
  constructor
  · apply t.ok_setBucket ht hi
    · intro e he
      have hmem := mem_keys_of_mem he
      rw [hkeys] at hmem
      obtain ⟨v,hv⟩ := mem_keys.mp hmem
      exact ht.placed _ ⟨e.1,v⟩ hv
    · rw [length_append,hlen,← length_append,← hsplit.length_eq]
      exact ht.counted
  · have hperm := Perm.kreplace (a := key) (b := value) hd hsplit
    rw [kreplace_append value (t.others_key ht key)] at hperm
    exact (t.setBucket_entries hi _).trans hperm.symm

theorem Table.entries_kerase (ht : t.Ok) (hd : t.entries.NodupKeys)
    (hmem : key∈(t.bucket (t.slot (hash key))).keys) :
    let t' : Table T := ⟨t.buckets.set (t.slot (hash key))
      ((t.bucket (t.slot (hash key))).kerase key),t.used-1⟩
    t'.Ok ∧ t'.entries ~ t.entries.kerase key := by
  obtain ⟨k,-,hk⟩ := ht.power
  have hi := t.slot_lt hk (hash key)
  have hsplit := t.entries_split hi
  have hlen : (t.bucket (t.slot (hash key))).length=
      ((t.bucket (t.slot (hash key))).kerase key).length+1 := by
    obtain ⟨b,l₁,l₂,-,h1,h2⟩ := exists_of_kerase hmem
    rw [h2]
    conv_lhs => rw [h1]
    simp
    omega
  constructor
  · apply t.ok_setBucket ht hi
    · intro e he
      exact ht.placed _ _ ((kerase_sublist key _).subset he)
    · rw [ht.counted,hsplit.length_eq,length_append,length_append]
      omega
  · have hperm := Perm.kerase (a := key) hd hsplit
    rw [kerase_append_left hmem] at hperm
    exact (t.setBucket_entries hi _).trans hperm.symm

theorem Table.bucket_isSome (ht : t.Ok) (hd : t.entries.NodupKeys) (key : Bytes) :
    ((t.bucket (t.slot (hash key))).dlookup key).isSome=true ↔ key∈t.entries.keys := by
  rw [Table.dlookup_bucket ht hd,dlookup_isSome]

namespace DictState

variable {d : DictState T}

theorem Valid.distinct0 (hd : d.Valid) : d.table0.entries.NodupKeys :=
  hd.distinct.sublist (sublist_append_left _ _)

theorem Valid.distinct1 (hd : d.Valid) : d.table1.entries.NodupKeys :=
  hd.distinct.sublist (sublist_append_right _ _)

theorem Valid.size_eq (hd : d.Valid) : d.size=d.entries.length := by
  rw [size,entries,length_append,hd.table0.counted]
  by_cases h : 0 ≤ d.rehashIndex
  · rw [(hd.active h).counted]
  · rw [hd.idle (lt_of_not_ge h)]
    rfl

theorem init_valid : (init : DictState T).Valid ∧ (init : DictState T).entries=[] := by
  obtain ⟨hok,hempty⟩ := Table.fresh_ok (T := T) (le_refl 2) (show initialSize=2^2 from rfl)
  have he : (init : DictState T).entries=[] := by
    rw [entries,init,hempty]
    rfl
  refine ⟨⟨hok,fun _ => rfl,fun h => absurd h (show ¬(0 : ℤ) ≤ -1 by decide),?_,?_⟩,he⟩
  · intro i hi
    have hneg : (init : DictState T).rehashIndex=-1 := rfl
    omega
  · rw [he]
    exact nodupKeys_nil

theorem skipEmpty_spec (buckets : List (List (Entry T))) :
    ∀ (rest : List (List (Entry T))) (idx : ℕ) (visits : ℤ), rest=buckets.drop idx →
      idx ≤ (skipEmpty rest idx visits).1 ∧
        ∀ j, idx ≤ j → j < (skipEmpty rest idx visits).1 → buckets.getD j []=[] := by
  intro rest
  induction rest with
  | nil =>
    intro idx visits _
    exact ⟨le_refl _,fun j h1 h2 => absurd h2 (Nat.not_lt.mpr h1)⟩
  | cons chain rest ih =>
    intro idx visits hrest
    have hlt : idx < buckets.length := by
      by_contra hge
      rw [drop_eq_nil_of_le (Nat.le_of_not_lt hge)] at hrest
      exact absurd hrest (cons_ne_nil _ _)
    have hsplit := drop_eq_getElem_cons hlt
    rw [hsplit] at hrest
    obtain ⟨hchain,hrest'⟩ := List.cons.inj hrest
    rw [skipEmpty]
    split
    · rename_i hempty
      have hnil : buckets.getD idx []=[] := by
        rw [getD_eq_getElem _ _ hlt,← hchain,List.isEmpty_iff.mp hempty]
      split
      · refine ⟨Nat.le_succ idx,?_⟩
        intro j h1 h2
        have hj : j=idx := by
          have h3 : j < idx+1 := h2
          omega
        rw [hj]
        exact hnil
      · obtain ⟨hle,hskip⟩ := ih (idx+1) (visits-1) hrest'
        refine ⟨by omega,?_⟩
        intro j h1 h2
        by_cases hj : j=idx
        · rw [hj]
          exact hnil
        · exact hskip j (by omega) h2
    · exact ⟨le_refl _,fun j h1 h2 => absurd h2 (Nat.not_lt.mpr h1)⟩

theorem foldl_moveEntry (chain : List (Entry T)) (d : DictState T) :
    chain.foldl moveEntry d={ d with
      table0 := { d.table0 with used := d.table0.used-chain.length },
      table1 := chain.foldl Table.push d.table1 } := by
  induction chain generalizing d with
  | nil => rfl
  | cons e chain ih =>
    rw [foldl_cons,ih]
    simp only [moveEntry,foldl_cons,length_cons]
    rw [Nat.sub_sub,Nat.add_comm 1]

theorem foldl_push (chain : List (Entry T)) {t : Table T} (ht : t.Ok) :
    (chain.foldl Table.push t).Ok ∧ (chain.foldl Table.push t).entries ~ chain++t.entries := by
  induction chain generalizing t with
  | nil => exact ⟨ht,Perm.refl _⟩
  | cons e chain ih =>
    obtain ⟨hpush,hperm⟩ := t.push_ok ht e
    obtain ⟨hok,hfold⟩ := ih hpush
    refine ⟨hok,?_⟩
    calc (chain.foldl Table.push (t.push e)).entries
        ~ chain++(t.push e).entries := hfold
      _ ~ chain++(e::t.entries) := hperm.append_left chain
      _ ~ e::chain++t.entries := perm_middle

theorem Valid.advance (hd : d.Valid) (hr : 0 ≤ d.rehashIndex) {i : ℕ}
    (hskip : ∀ j, d.rehashIndex.toNat ≤ j → j < i → d.table0.bucket j=[]) :
    ({ d with rehashIndex := i } : DictState T).Valid := by
  refine ⟨hd.table0,fun h => absurd h (by simp),fun _ => hd.active hr,?_,hd.distinct⟩
  intro j hj
  have hji : j < i := by
    have h : (j : ℤ) < i := hj
    omega
  by_cases hlow : (j : ℤ) < d.rehashIndex
  · exact hd.swept j hlow
  · exact hskip j (by omega) hji

theorem moveBucket_valid (hd : d.Valid) (hr : 0 ≤ d.rehashIndex)
    (hlt : d.rehashIndex.toNat < d.table0.size) :
    d.moveBucket.Valid ∧ d.moveBucket.entries ~ d.entries ∧ 0 ≤ d.moveBucket.rehashIndex := by
  have hchain : ∀ e∈([] : List (Entry T)), d.table0.slot (hash e.1)=d.rehashIndex.toNat := by
    intro e he
    exact absurd he not_mem_nil
  obtain ⟨hok1,hperm1⟩ := foldl_push (d.table0.bucket d.rehashIndex.toNat) (hd.active hr)
  have hsplit := d.table0.entries_split hlt
  have hcount : d.table0.used-(d.table0.bucket d.rehashIndex.toNat).length=
      ([]++d.table0.others d.rehashIndex.toNat).length := by
    rw [hd.table0.counted,hsplit.length_eq,length_append,nil_append]
    omega
  have hok0 := d.table0.ok_setBucket hd.table0 hlt hchain hcount
  have hset := d.table0.setBucket_entries hlt []
  have hentries : d.moveBucket.entries ~ d.entries := by
    rw [moveBucket,foldl_moveEntry]
    calc (d.table0.setBucket d.rehashIndex.toNat []).entries++
          ((d.table0.bucket d.rehashIndex.toNat).foldl Table.push d.table1).entries
        ~ d.table0.others d.rehashIndex.toNat++
          (d.table0.bucket d.rehashIndex.toNat++d.table1.entries) := hset.append hperm1
      _ ~ d.table0.bucket d.rehashIndex.toNat++d.table0.others d.rehashIndex.toNat++
          d.table1.entries := by
        rw [← append_assoc]
        exact perm_append_comm.append_right _
      _ ~ d.entries := hsplit.symm.append_right _
  refine ⟨⟨?_,?_,?_,?_,?_⟩,hentries,?_⟩
  · rw [moveBucket,foldl_moveEntry]
    exact hok0
  · intro h
    rw [moveBucket,foldl_moveEntry] at h
    have h' : d.rehashIndex+1 < 0 := h
    omega
  · intro _
    rw [moveBucket,foldl_moveEntry]
    exact hok1
  · intro i hi
    rw [moveBucket,foldl_moveEntry] at hi ⊢
    have hi' : (i : ℤ) < d.rehashIndex+1 := hi
    have hb := d.table0.bucket_setBucket hlt [] i
    change (d.table0.setBucket d.rehashIndex.toNat []).bucket i=[]
    rw [hb]
    split
    · rfl
    · exact hd.swept i (by omega)
  · exact (perm_nodupKeys hentries).mpr hd.distinct
  · rw [moveBucket,foldl_moveEntry]
    change 0 ≤ d.rehashIndex+1
    omega

theorem rehashLoop_valid (n : ℕ) : ∀ (visits : ℤ) {d : DictState T}, d.Valid → 0 ≤ d.rehashIndex →
    (rehashLoop n visits d).1.Valid ∧ (rehashLoop n visits d).1.entries ~ d.entries ∧
      0 ≤ (rehashLoop n visits d).1.rehashIndex := by
  induction n with
  | zero =>
    intro visits d hd hr
    exact ⟨hd,Perm.refl _,hr⟩
  | succ n ih =>
    intro visits d hd hr
    rw [rehashLoop]
    split
    · have hspec := skipEmpty_spec d.table0.buckets _ d.rehashIndex.toNat visits rfl
      generalize hres : skipEmpty (d.table0.buckets.drop d.rehashIndex.toNat)
        d.rehashIndex.toNat visits=res at hspec ⊢
      obtain ⟨i,visits',stop⟩ := res
      have hadv := hd.advance hr hspec.2
      cases stop with
      | true => exact ⟨hadv,Perm.refl _,Int.natCast_nonneg i⟩
      | false =>
        dsimp only
        split
        · exact ⟨hadv,Perm.refl _,Int.natCast_nonneg i⟩
        · rename_i hlt
          obtain ⟨hmv,hmp,hmr⟩ := moveBucket_valid hadv (Int.natCast_nonneg i)
            (Nat.lt_of_not_le hlt)
          obtain ⟨hv,hp,hr'⟩ := ih visits' hmv hmr
          exact ⟨hv,hp.trans hmp,hr'⟩
    · exact ⟨hd,Perm.refl _,hr⟩

theorem rehashSteps_valid (hd : d.Valid) (n : ℤ) :
    (d.rehashSteps n).1.Valid ∧ (d.rehashSteps n).1.entries ~ d.entries := by
  rw [rehashSteps]
  split
  · rename_i hr
    have hr' : 0 ≤ d.rehashIndex := of_decide_eq_true hr
    obtain ⟨hv,hp,hidx⟩ := rehashLoop_valid n.toNat (n*10) hd hr'
    generalize rehashLoop n.toNat (n*10) d=res at hv hp hidx ⊢
    obtain ⟨d',stop⟩ := res
    cases stop with
    | true => exact ⟨hv,hp⟩
    | false =>
      dsimp only at hv hp hidx ⊢
      split
      · rename_i hused
        have hnil : d'.table0.entries=[] := by
          rw [hv.table0.counted] at hused
          exact length_eq_zero_iff.mp hused
        have hent : d'.entries=d'.table1.entries := by
          rw [entries,hnil,nil_append]
        have hnew : (⟨d'.table1,Table.none,-1⟩ : DictState T).entries=d'.table1.entries :=
          append_nil _
        refine ⟨⟨hv.active hidx,fun _ => rfl,fun h => absurd h (show ¬(0 : ℤ) ≤ -1 by decide),
          ?_,?_⟩,?_⟩
        · intro i hi
          have hi' : (i : ℤ) < -1 := hi
          omega
        · rw [hnew]
          exact hv.distinct1
        · rw [hnew,← hent]
          exact hp
      · exact ⟨hv,hp⟩
  · exact ⟨hd,Perm.refl _⟩

theorem rehashStep_valid (hd : d.Valid) :
    d.rehashStep.Valid ∧ d.rehashStep.entries ~ d.entries := by
  rw [rehashStep]
  split
  · exact rehashSteps_valid hd 1
  · exact ⟨hd,Perm.refl _⟩

theorem search_eq (hd : d.Valid) (key : Bytes) :
    d.search key=d.entries.dlookup key := by
  rw [search,entries,dlookup_append,Table.dlookup_bucket hd.table0 hd.distinct0]
  cases h0 : d.table0.entries.dlookup key with
  | some v => rfl
  | none =>
    dsimp only [Option.none_or]
    split
    · rename_i hr
      exact Table.dlookup_bucket (hd.active (of_decide_eq_true hr)) hd.distinct1 key
    · rename_i hr
      have hneg : d.rehashIndex < 0 := lt_of_not_ge fun h => hr (decide_eq_true h)
      rw [hd.idle hneg]
      rfl

theorem Valid.entries_nil (hd : d.Valid) (hempty : (d.size==0)=true) :
    d.entries=[] := by
  have hz := beq_iff_eq.mp hempty
  rw [hd.size_eq] at hz
  exact length_eq_zero_iff.mp hz

theorem find_spec (hd : d.Valid) (key : Bytes) :
    (d.find key).1=d.entries.dlookup key ∧ (d.find key).2.Valid ∧
      (d.find key).2.entries ~ d.entries := by
  rw [find]
  split
  · rename_i hempty
    rw [hd.entries_nil hempty]
    exact ⟨rfl,hd,Perm.refl _⟩
  · obtain ⟨hv,hp⟩ := rehashStep_valid hd
    refine ⟨?_,hv,hp⟩
    rw [search_eq hv,perm_dlookup key hv.distinct hp]

theorem Valid.dlookup_perm (hd : d.Valid) {l : List (Entry T)}
    (h : d.entries ~ l) (key : Bytes) : d.entries.dlookup key=l.dlookup key :=
  perm_dlookup key hd.distinct h

theorem Valid.apart (hd : d.Valid) {key : Bytes}
    (h : key∈d.table0.entries.keys) : key∉d.table1.entries.keys := by
  have hnd := hd.distinct
  rw [NodupKeys,entries,keys_append,nodup_append] at hnd
  exact fun h1 => hnd.2.2 key h key h1 rfl

theorem assign_valid (hd : d.Valid) {key : Bytes} (hmem : key∈d.entries.keys) (value : T) :
    (d.assign key value).Valid ∧ (d.assign key value).entries ~ d.entries.kreplace key value := by
  have hperm : (d.assign key value).entries ~ d.entries.kreplace key value ∧
      (d.assign key value).table0.Ok ∧ (0 ≤ d.rehashIndex → (d.assign key value).table1.Ok) ∧
      (d.rehashIndex < 0 → (d.assign key value).table1=Table.none) ∧
      (∀ i : ℕ, (i : ℤ) < d.rehashIndex → (d.assign key value).table0.bucket i=[]) := by
    rw [assign]
    split
    · rename_i hsome
      have h0 := (Table.bucket_isSome hd.table0 hd.distinct0 key).mp hsome
      obtain ⟨hok,hp⟩ := Table.entries_kreplace hd.table0 hd.distinct0 key value
      obtain ⟨k,-,hk⟩ := hd.table0.power
      refine ⟨?_,hok,hd.active,hd.idle,?_⟩
      · rw [entries,entries,kreplace_append value (hd.apart h0)]
        exact hp.append_right _
      · intro i hi
        rw [Table.bucket_setBucket (Table.slot_lt hk _)]
        split
        · rename_i he
          rw [← he,hd.swept i hi]
          rfl
        · exact hd.swept i hi
    · rename_i hnone
      have h0 : key∉d.table0.entries.keys :=
        fun h => hnone ((Table.bucket_isSome hd.table0 hd.distinct0 key).mpr h)
      have h1 : key∈d.table1.entries.keys := by
        rw [entries,keys_append,mem_append] at hmem
        exact hmem.resolve_left h0
      have hr : 0 ≤ d.rehashIndex := by
        by_contra hneg
        rw [hd.idle (lt_of_not_ge hneg)] at h1
        exact absurd h1 not_mem_nil
      obtain ⟨hok,hp⟩ := Table.entries_kreplace (hd.active hr) hd.distinct1 key value
      refine ⟨?_,hd.table0,fun _ => hok,fun hneg => absurd hr (not_le.mpr hneg),hd.swept⟩
      have hcomm : d.table1.entries.kreplace key value++d.table0.entries ~
          d.entries.kreplace key value := by
        rw [← kreplace_append value h0,entries]
        refine Perm.kreplace (β := fun _ => T) ?_ perm_append_comm
        exact (perm_nodupKeys perm_append_comm).mp hd.distinct
      exact (perm_append_comm.trans (hp.append_right _)).trans hcomm
  obtain ⟨hp,h0,h1,hidle,hswept⟩ := hperm
  have hidx : (d.assign key value).rehashIndex=d.rehashIndex := by
    rw [assign]
    split <;> rfl
  refine ⟨⟨h0,by rwa [hidx],by rwa [hidx],by rwa [hidx],?_⟩,hp⟩
  exact (perm_nodupKeys hp).mpr ((kreplace_nodupKeys key value).mpr hd.distinct)

theorem nextPowerLoop_power (fuel : ℕ) : ∀ (p n : ℕ), (∃ k, 2 ≤ k ∧ p=2^k) →
    ∃ k, 2 ≤ k ∧ nextPowerLoop fuel p n=2^k := by
  induction fuel with
  | zero => exact fun p n h => h
  | succ fuel ih =>
    intro p n h
    rw [nextPowerLoop]
    split
    · obtain ⟨k,hk,rfl⟩ := h
      exact ih _ n ⟨k+1,by omega,by rw [pow_succ]⟩
    · exact h

theorem resizeTo_valid (hd : d.Valid) (hr : d.rehashIndex < 0) {n : ℕ}
    (hn : ∃ k, 2 ≤ k ∧ n=2^k) : (d.resizeTo n).Valid ∧ (d.resizeTo n).entries=d.entries := by
  obtain ⟨k,hk,hn⟩ := hn
  obtain ⟨hok,hempty⟩ := Table.fresh_ok (T := T) hk hn
  have hent : (d.resizeTo n).entries=d.entries := by
    rw [entries,entries,hd.idle hr]
    change _++(Table.fresh n).entries=_
    rw [hempty]
    rfl
  refine ⟨⟨hd.table0,fun h => absurd h (show ¬(0 : ℤ) < 0 by decide),fun _ => hok,?_,?_⟩,hent⟩
  · intro i hi
    have hi' : (i : ℤ) < 0 := hi
    omega
  · rw [hent]
    exact hd.distinct

theorem expandIfNeeded_valid (hd : d.Valid) :
    d.expandIfNeeded.Valid ∧ d.expandIfNeeded.entries=d.entries := by
  rw [expandIfNeeded]
  split
  · exact ⟨hd,rfl⟩
  · rename_i hr
    split
    · exact ⟨hd,rfl⟩
    · obtain ⟨k,hk,hs⟩ := hd.table0.power
      have hneg : d.rehashIndex < 0 := lt_of_not_ge fun h => hr (decide_eq_true h)
      exact resizeTo_valid hd hneg ⟨k+1,by omega,by rw [hs,pow_succ]⟩

theorem shrinkIfNeeded_valid (hd : d.Valid) :
    d.shrinkIfNeeded.Valid ∧ d.shrinkIfNeeded.entries=d.entries := by
  rw [shrinkIfNeeded]
  split
  · exact ⟨hd,rfl⟩
  · rename_i hr
    split
    · exact ⟨hd,rfl⟩
    · split
      · exact ⟨hd,rfl⟩
      · have hneg : d.rehashIndex < 0 := lt_of_not_ge fun h => hr (decide_eq_true h)
        refine resizeTo_valid hd hneg ?_
        obtain ⟨k,hk,hp⟩ := nextPowerLoop_power (d.table0.used+1) initialSize (d.table0.used+1)
          ⟨2,le_refl 2,rfl⟩
        rcases max_choice initialSize (nextPowerOfTwo (d.table0.used+1)) with hm | hm
        · exact ⟨2,le_refl 2,hm⟩
        · exact ⟨k,hk,hm.trans hp⟩

theorem link_valid (hd : d.Valid) {e : Entry T} (hnew : e.1∉d.entries.keys) :
    (d.link e).Valid ∧ (d.link e).entries ~ e::d.entries := by
  have hcons : NodupKeys (e::d.entries) := nodupKeys_cons.mpr ⟨hnew,hd.distinct⟩
  rw [link]
  split
  · rename_i hr
    have hr' : 0 ≤ d.rehashIndex := of_decide_eq_true hr
    obtain ⟨hok,hp⟩ := d.table1.push_ok (hd.active hr') e
    have hperm : ({ d with table1 := d.table1.push e } : DictState T).entries ~ e::d.entries :=
      (hp.append_left _).trans perm_middle
    exact ⟨⟨hd.table0,fun h => absurd hr' (not_le.mpr h),fun _ => hok,hd.swept,
      (perm_nodupKeys hperm).mpr hcons⟩,hperm⟩
  · rename_i hr
    have hneg : d.rehashIndex < 0 := lt_of_not_ge fun h => hr (decide_eq_true h)
    obtain ⟨hok,hp⟩ := d.table0.push_ok hd.table0 e
    have hperm : ({ d with table0 := d.table0.push e } : DictState T).entries ~ e::d.entries :=
      hp.append_right _
    refine ⟨⟨hok,hd.idle,fun h => absurd h (not_le.mpr hneg),?_,
      (perm_nodupKeys hperm).mpr hcons⟩,hperm⟩
    intro i hi
    have hi' : (i : ℤ) < d.rehashIndex := hi
    omega

theorem insert_spec (hd : d.Valid) (key : Bytes) (value : T) :
    (d.insert key value).1.Valid ∧
      (∀ k, (d.insert key value).1.entries.dlookup k=
        if k=key then some value else d.entries.dlookup k) ∧
      (d.insert key value).2=(d.entries.dlookup key).isNone := by
  obtain ⟨hsv,hsp⟩ := rehashStep_valid hd
  obtain ⟨hres,hfv,hfp⟩ := find_spec hsv key
  have hall : ∀ k, (d.rehashStep.find key).2.entries.dlookup k=d.entries.dlookup k :=
    fun k => hfv.dlookup_perm (hfp.trans hsp) k
  have hkey : (d.rehashStep.find key).1=d.entries.dlookup key :=
    hres.trans (hsv.dlookup_perm hsp key)
  rw [insert]
  generalize d.rehashStep.find key=res at hres hfv hfp hall hkey ⊢
  obtain ⟨found,d'⟩ := res
  cases found with
  | some v =>
    have hmem : key∈d'.entries.keys := by
      rw [← dlookup_isSome,hall key,← hkey]
      rfl
    obtain ⟨hv,hp⟩ := assign_valid hfv hmem value
    refine ⟨hv,?_,?_⟩
    · intro k
      rw [hv.dlookup_perm hp,dlookup_kreplace value hmem,hall k]
    · rw [← hkey]
      rfl
  | none =>
    obtain ⟨hev,hee⟩ := expandIfNeeded_valid hfv
    have hnew : key∉d'.expandIfNeeded.entries.keys := by
      rw [hee,← dlookup_eq_none,hall key,← hkey]
    obtain ⟨hv,hp⟩ := link_valid (e := ⟨key,value⟩) hev hnew
    refine ⟨hv,?_,?_⟩
    · intro k
      rw [hv.dlookup_perm hp,hee]
      by_cases hk : k=key
      · subst hk
        rw [if_pos rfl,dlookup_cons_eq]
      · rw [if_neg hk,dlookup_cons_ne _ _ hk,hall k]
    · rw [← hkey]
      rfl

theorem unlink0_valid (hd : d.Valid) {key : Bytes} (hmem : key∈d.table0.entries.keys) :
    let d' : DictState T := { d with table0 := ⟨d.table0.buckets.set (d.table0.slot (hash key))
      ((d.table0.bucket (d.table0.slot (hash key))).kerase key),d.table0.used-1⟩ }
    d'.Valid ∧ d'.entries ~ d.entries.kerase key := by
  have hb := (Table.bucket_isSome hd.table0 hd.distinct0 key).mpr hmem
  obtain ⟨hok,hp⟩ := Table.entries_kerase hd.table0 hd.distinct0 (dlookup_isSome.mp hb)
  obtain ⟨k,-,hk⟩ := hd.table0.power
  intro d'
  have hperm : d'.entries ~ d.entries.kerase key := by
    rw [entries,entries,kerase_append_left hmem]
    exact hp.append_right _
  refine ⟨⟨hok,hd.idle,hd.active,?_,?_⟩,hperm⟩
  · intro i hi
    have hset := Table.bucket_setBucket (t := d.table0) (Table.slot_lt hk (hash key))
      ((d.table0.bucket (d.table0.slot (hash key))).kerase key) i
    change (d.table0.setBucket _ _).bucket i=[]
    rw [hset]
    split
    · rename_i he
      rw [← he,hd.swept i hi]
      rfl
    · exact hd.swept i hi
  · exact (perm_nodupKeys hperm).mpr (hd.distinct.kerase key)

theorem unlink1_valid (hd : d.Valid) (hr : 0 ≤ d.rehashIndex) {key : Bytes}
    (h0 : key∉d.table0.entries.keys) (hmem : key∈d.table1.entries.keys) :
    let d' : DictState T := { d with table1 := ⟨d.table1.buckets.set (d.table1.slot (hash key))
      ((d.table1.bucket (d.table1.slot (hash key))).kerase key),d.table1.used-1⟩ }
    d'.Valid ∧ d'.entries ~ d.entries.kerase key := by
  have hb := (Table.bucket_isSome (hd.active hr) hd.distinct1 key).mpr hmem
  obtain ⟨hok,hp⟩ := Table.entries_kerase (hd.active hr) hd.distinct1 (dlookup_isSome.mp hb)
  intro d'
  have hperm : d'.entries ~ d.entries.kerase key := by
    rw [entries,entries,kerase_append_right h0]
    exact hp.append_left _
  exact ⟨⟨hd.table0,fun h => absurd hr (not_le.mpr h),fun _ => hok,hd.swept,
    (perm_nodupKeys hperm).mpr (hd.distinct.kerase key)⟩,hperm⟩

theorem erase_spec (hd : d.Valid) (key : Bytes) :
    (d.erase key).1.Valid ∧ (d.erase key).1.entries ~ d.entries.kerase key ∧
      (d.erase key).2=(d.entries.dlookup key).isSome := by
  rw [erase]
  split
  · rename_i hempty
    rw [hd.entries_nil hempty]
    exact ⟨hd,Perm.refl _,rfl⟩
  · obtain ⟨hv,hp⟩ := rehashStep_valid hd
    have herase : d.rehashStep.entries.kerase key ~ d.entries.kerase key :=
      Perm.kerase hv.distinct hp
    have hsame : (d.entries.dlookup key).isSome=true ↔ key∈d.rehashStep.entries.keys := by
      rw [← hv.dlookup_perm hp,dlookup_isSome]
    have hkeys : d.rehashStep.entries.keys=
        d.rehashStep.table0.entries.keys++d.rehashStep.table1.entries.keys := by
      rw [entries,keys_append]
    -- the shrink behind an unlinked entry
    have hshrunk : ∀ {u : DictState T},u.Valid → u.entries ~ d.rehashStep.entries.kerase key →
        key∈d.rehashStep.entries.keys → u.shrinkIfNeeded.Valid ∧
          u.shrinkIfNeeded.entries ~ d.entries.kerase key ∧
          true=(d.entries.dlookup key).isSome := by
      intro u huv hup hkey
      obtain ⟨hsv,hse⟩ := shrinkIfNeeded_valid huv
      exact ⟨hsv,by rw [hse]; exact hup.trans herase,(hsame.mpr hkey).symm⟩
    dsimp only
    split
    · rename_i hsome
      have h0 := (Table.bucket_isSome hv.table0 hv.distinct0 key).mp hsome
      obtain ⟨huv,hup⟩ := unlink0_valid hv h0
      exact hshrunk huv hup (hkeys ▸ mem_append_left _ h0)
    · rename_i hnone
      have h0 : key∉d.rehashStep.table0.entries.keys :=
        fun h => hnone ((Table.bucket_isSome hv.table0 hv.distinct0 key).mpr h)
      split
      · rename_i hboth
        obtain ⟨hr,hsome⟩ := Bool.and_eq_true_iff.mp hboth
        have hr' : 0 ≤ d.rehashStep.rehashIndex := of_decide_eq_true hr
        have h1 := (Table.bucket_isSome (hv.active hr') hv.distinct1 key).mp hsome
        obtain ⟨huv,hup⟩ := unlink1_valid hv hr' h0 h1
        exact hshrunk huv hup (hkeys ▸ mem_append_right _ h1)
      · rename_i hboth
        have h1 : key∉d.rehashStep.entries.keys := by
          rw [entries,keys_append,mem_append]
          rintro (h | h)
          · exact h0 h
          · by_cases hr : 0 ≤ d.rehashStep.rehashIndex
            · exact hboth (Bool.and_eq_true_iff.mpr ⟨decide_eq_true hr,
                (Table.bucket_isSome (hv.active hr) hv.distinct1 key).mpr h⟩)
            · rw [hv.idle (lt_of_not_ge hr)] at h
              exact absurd h not_mem_nil
        refine ⟨hv,?_,?_⟩
        · rwa [kerase_of_notMem_keys h1] at herase
        · exact (Bool.eq_false_iff.mpr fun h => h1 (hsame.mp h)).symm

end DictState

end Mnemos.Dict

namespace Mnemos

structure Dict (T : Type) where
  state : Dict.DictState T
  valid : state.Valid

namespace Dict

variable {T : Type}

instance [DecidableEq T] : DecidableEq (Dict T) := fun a b =>
  decidable_of_iff (a.state=b.state) (by cases a; cases b; simp)

def init : Dict T := ⟨DictState.init,DictState.init_valid.1⟩

def entries (d : Dict T) : List (Entry T) := d.state.entries

def lookup (d : Dict T) (key : Bytes) : Option T := d.entries.dlookup key

def size (d : Dict T) : ℕ := d.state.size

def rehashSteps (d : Dict T) (n : ℤ) : Dict T :=
  ⟨(d.state.rehashSteps n).1,(DictState.rehashSteps_valid d.valid n).1⟩

def find (d : Dict T) (key : Bytes) : Option T×Dict T :=
  ((d.state.find key).1,⟨(d.state.find key).2,(DictState.find_spec d.valid key).2.1⟩)

/-- Result of a `const` `find`. The call also migrates a bucket, which changes no entry; the
model leaves that step to the calls that may change the table. -/
def peek (d : Dict T) (key : Bytes) : Option T := d.state.search key

def insert (d : Dict T) (key : Bytes) (value : T) : Dict T×Bool :=
  (⟨(d.state.insert key value).1,(DictState.insert_spec d.valid key value).1⟩,
    (d.state.insert key value).2)

def erase (d : Dict T) (key : Bytes) : Dict T×Bool :=
  (⟨(d.state.erase key).1,(DictState.erase_spec d.valid key).1⟩,(d.state.erase key).2)

/-- Write through the pointer a `find` returned; there is none for an absent key. -/
def assign (d : Dict T) (key : Bytes) (value : T) : Dict T :=
  if h : key∈d.state.entries.keys then
    ⟨d.state.assign key value,(DictState.assign_valid d.valid h value).1⟩
  else d

variable (d : Dict T)

theorem entries_nodupKeys : d.entries.NodupKeys := d.valid.distinct

theorem size_eq : d.size=d.entries.length := d.valid.size_eq

theorem mem_entries {d : Dict T} {key : Bytes} {value : T} :
    (⟨key,value⟩ : Entry T)∈d.entries ↔ d.lookup key=some value :=
  (mem_dlookup_iff d.entries_nodupKeys).symm

variable (key : Bytes)

@[simp] theorem lookup_init : (init : Dict T).lookup key=none := by
  rw [lookup,entries,init,DictState.init_valid.2]
  rfl

@[simp] theorem find_fst : (d.find key).1=d.lookup key :=
  (DictState.find_spec d.valid key).1

theorem find_entries : (d.find key).2.entries ~ d.entries :=
  (DictState.find_spec d.valid key).2.2

@[simp] theorem peek_eq : d.peek key=d.lookup key :=
  DictState.search_eq d.valid key

@[simp] theorem lookup_find (k : Bytes) :
    (d.find key).2.lookup k=d.lookup k :=
  (d.find key).2.valid.dlookup_perm (d.find_entries key) k

@[simp] theorem lookup_insert (value : T) (k : Bytes) :
    (d.insert key value).1.lookup k=if k=key then some value else d.lookup k :=
  (DictState.insert_spec d.valid key value).2.1 k

@[simp] theorem insert_snd (value : T) :
    (d.insert key value).2=(d.lookup key).isNone :=
  (DictState.insert_spec d.valid key value).2.2

theorem lookup_foldl_insert (es : List (Entry T)) (d : Dict T) (k : Bytes) :
    (es.foldl (fun d e => (d.insert e.1 e.2).1) d).lookup k=
      (es.reverse.dlookup k).or (d.lookup k) := by
  induction es generalizing d with
  | nil => rfl
  | cons e es ih =>
    rw [foldl_cons,ih,lookup_insert,reverse_cons,dlookup_append]
    by_cases hk : k=e.1
    · rw [if_pos hk,hk,dlookup_cons_eq]
      cases es.reverse.dlookup e.1 <;> rfl
    · rw [if_neg hk,dlookup_cons_ne [] e hk]
      cases es.reverse.dlookup k <;> rfl

theorem lookup_insertAll {es : List (Entry T)} (h : es.NodupKeys) (k : Bytes) :
    (es.foldl (fun d e => (d.insert e.1 e.2).1) (init : Dict T)).lookup k=es.dlookup k := by
  rw [lookup_foldl_insert,lookup_init,Option.or_none]
  exact perm_dlookup k ((perm_nodupKeys (reverse_perm es)).mpr h) (reverse_perm es)

@[simp] theorem lookup_erase (k : Bytes) :
    (d.erase key).1.lookup k=if k=key then none else d.lookup k := by
  have h := (d.erase key).1.valid.dlookup_perm (DictState.erase_spec d.valid key).2.1 k
  refine h.trans ?_
  by_cases hk : k=key
  · subst hk
    rw [if_pos rfl,dlookup_kerase k d.valid.distinct]
  · rw [if_neg hk,dlookup_kerase_ne hk]
    rfl

@[simp] theorem erase_snd :
    (d.erase key).2=(d.lookup key).isSome :=
  (DictState.erase_spec d.valid key).2.2

@[simp] theorem lookup_assign (value : T) (k : Bytes) :
    (d.assign key value).lookup k=
      if k=key ∧ (d.lookup key).isSome then some value else d.lookup k := by
  rw [assign]
  split
  · rename_i h
    have hp := DictState.assign_valid d.valid h value
    have hsome : (d.lookup key).isSome=true := dlookup_isSome.mpr h
    refine (hp.1.dlookup_perm hp.2 k).trans ?_
    rw [dlookup_kreplace value h]
    simp only [hsome,and_true]
    rfl
  · rename_i h
    have hnone : ¬(d.lookup key).isSome=true := fun hs => h (dlookup_isSome.mp hs)
    rw [if_neg fun hc => hnone hc.2]

end Dict

end Mnemos
