import Mnemos.DictScan
import Mnemos.Value

/-!
# One numbered keyspace

The operations of `server/db.cpp` on the main dictionary and the table of
deadlines.
-/

open List

namespace Mnemos.Dict

variable {T : Type}

namespace DictState

def randomTable (d : DictState T) (draws : Draws) : Table T×Draws :=
  if d.isRehashing then (if draws.head%2=1 then d.table1 else d.table0,draws.tail)
  else (d.table0,draws)

/-- One attempt of `randomEntry`; none when it goes on to the next one. -/
def randomAttempt (d : DictState T) (draws : Draws) : Option (Entry T)×Draws :=
  let picked := d.randomTable draws
  if picked.1.size=0 || picked.1.used=0 then (none,picked.2)
  else
    let chain := picked.1.bucket (picked.2.head%picked.1.size)
    if chain.isEmpty then (none,picked.2.tail)
    else (chain[picked.2.tail.head%chain.length]?,picked.2.tail.tail)

/-- The attempts of `randomEntry`, with the linear scan after the last one. -/
def randomLoop (d : DictState T) : ℕ → Draws → Option (Entry T)×Draws
  | 0,draws => (d.entries.head?,draws)
  | attempts+1,draws =>
    match d.randomAttempt draws with
    | (some e,draws) => (some e,draws)
    | (none,draws) => randomLoop d attempts draws

def randomEntry (d : DictState T) (draws : Draws) : Option (Entry T)×Draws :=
  if d.empty then (none,draws) else d.randomLoop 100 draws

theorem randomTable_entries (d : DictState T) (draws : Draws) :
    (d.randomTable draws).1.entries ⊆ d.entries := by
  rw [randomTable]
  split
  · dsimp only
    split
    · exact subset_append_right _ _
    · exact subset_append_left _ _
  · exact subset_append_left _ _

theorem randomAttempt_mem {d : DictState T} {draws : Draws} {e : Entry T}
    (h : (d.randomAttempt draws).1=some e) : e∈d.entries := by
  unfold randomAttempt at h
  dsimp only at h
  split at h
  · cases h
  · split at h
    · cases h
    · rename_i hsize hchain
      apply d.randomTable_entries draws
      refine Table.mem_entries.mpr ⟨(d.randomTable draws).2.head%(d.randomTable draws).1.size,?_,?_⟩
      · rw [Bool.or_eq_true,decide_eq_true_eq,not_or] at hsize
        exact Nat.mod_lt _ (Nat.pos_of_ne_zero hsize.1)
      · exact mem_of_getElem? h

theorem randomLoop_mem {d : DictState T} (attempts : ℕ) {draws : Draws} {e : Entry T}
    (h : (d.randomLoop attempts draws).1=some e) : e∈d.entries := by
  induction attempts generalizing draws with
  | zero => exact mem_of_head? h
  | succ attempts ih =>
    rw [randomLoop] at h
    cases hattempt : d.randomAttempt draws with
    | mk found rest =>
      rw [hattempt] at h
      cases found with
      | some found =>
        have hfound : found=e := Option.some.inj h
        rw [← hfound]
        exact randomAttempt_mem (congrArg Prod.fst hattempt)
      | none => exact ih h

theorem randomLoop_isSome {d : DictState T} (hsome : d.entries≠[]) (attempts : ℕ) (draws : Draws) :
    (d.randomLoop attempts draws).1.isSome=true := by
  induction attempts generalizing draws with
  | zero => simpa [randomLoop] using hsome
  | succ attempts ih =>
    rw [randomLoop]
    cases hattempt : d.randomAttempt draws with
    | mk found rest =>
      cases found with
      | some found => rfl
      | none => exact ih rest

end DictState

def randomEntry (d : Dict T) (draws : Draws) : Option (Entry T)×Draws := d.state.randomEntry draws

theorem randomEntry_mem {d : Dict T} {draws : Draws} {e : Entry T}
    (h : (d.randomEntry draws).1=some e) : e∈d.entries := by
  rw [randomEntry,DictState.randomEntry] at h
  split at h
  · cases h
  · exact DictState.randomLoop_mem 100 h

theorem entries_of_randomEntry {d : Dict T} {draws : Draws} (h : (d.randomEntry draws).1=none) :
    d.entries=[] := by
  by_contra hsome
  have hsize : ¬d.state.empty=true := by
    rw [DictState.empty,beq_iff_eq,d.valid.size_eq]
    exact mt length_eq_zero_iff.mp hsome
  have hfound := DictState.randomLoop_isSome hsome 100 draws
  rw [randomEntry,DictState.randomEntry,if_neg hsize] at h
  rw [h] at hfound
  cases hfound

theorem exists_randomTable {d : Dict T} {e : Entry T} (he : e∈d.entries) :
    ∃ t : Table T,t.Ok ∧ e∈t.entries ∧ ∀ rest,∃ draws,d.state.randomTable draws=(t,rest) := by
  rcases mem_append.mp he with h0 | h1
  · refine ⟨_,d.valid.table0,h0,fun rest => ?_⟩
    by_cases hr : d.state.isRehashing
    · exact ⟨.cons 0 rest,by simp [DictState.randomTable,hr]⟩
    · exact ⟨rest,by simp [DictState.randomTable,hr]⟩
  · have hr : 0 ≤ d.state.rehashIndex := by
      by_contra hidle
      rw [d.valid.idle (not_le.mp hidle)] at h1
      cases h1
    refine ⟨_,d.valid.active hr,h1,fun rest => ⟨.cons 1 rest,?_⟩⟩
    simp [DictState.randomTable,DictState.isRehashing,hr]

theorem exists_randomEntry {d : Dict T} {e : Entry T} (he : e∈d.entries) (rest : Draws) :
    ∃ draws,d.randomEntry draws=(some e,rest) := by
  obtain ⟨t,ht,hmem,hdraws⟩ := exists_randomTable he
  obtain ⟨i,hi,hchain⟩ := Table.mem_entries.mp hmem
  obtain ⟨j,hj,hget⟩ := getElem_of_mem hchain
  obtain ⟨draws,htable⟩ := hdraws (.cons i (.cons j rest))
  have hused : t.used≠0 := by
    rw [ht.counted]
    exact (length_pos_of_mem hmem).ne'
  have hattempt : d.state.randomAttempt draws=(some e,rest) := by
    simp only [DictState.randomAttempt,htable,Stream'.head_cons,Stream'.tail_cons,
      Nat.mod_eq_of_lt hi,Nat.mod_eq_of_lt hj,getElem?_eq_getElem hj,hget]
    rw [if_neg (by simp [hused]; omega),if_neg (by simp [ne_nil_of_mem hchain])]
  have hsize : ¬d.state.empty=true := by
    rw [DictState.empty,beq_iff_eq,d.valid.size_eq]
    exact (length_pos_of_mem he).ne'
  refine ⟨draws,?_⟩
  rw [randomEntry,DictState.randomEntry,if_neg hsize,DictState.randomLoop,hattempt]

end Mnemos.Dict

/-! ## One numbered keyspace -/

namespace Mnemos

inductive Callback where
  | expired (key : Bytes)
  | added (key : Bytes)
deriving DecidableEq

structure Database where
  dict : Dict Value
  expires : Dict ℤ

namespace Database

/-- What an operation leaves: its result, the database and the callbacks made. -/
structure Outcome (A : Type) where
  result : A
  db : Database
  calls : List Callback

def init : Database := ⟨.init,.init⟩

def expireIfNeeded (db : Database) (key : Bytes) (now : ℤ) : Outcome Bool :=
  let found := db.expires.find key
  match found.1 with
  | none => ⟨false,{ db with expires := found.2 },[]⟩
  | some deadline =>
    if now < deadline then ⟨false,{ db with expires := found.2 },[]⟩
    else ⟨true,⟨(db.dict.erase key).1,(found.2.erase key).1⟩,[.expired key]⟩

/-- The end of `lookupRead`, for a key that has not expired. -/
def findAndTouch (db : Database) (key : Bytes) (now : ℤ) : Outcome (Option Value) :=
  let found := db.dict.find key
  match found.1 with
  | none => ⟨none,{ db with dict := found.2 },[]⟩
  | some v => ⟨some (v.touch now),{ db with dict := found.2.assign key (v.touch now) },[]⟩

def lookupRead (db : Database) (key : Bytes) (now : ℤ) : Outcome (Option Value) :=
  let expired := db.expireIfNeeded key now
  if expired.result then ⟨none,expired.db,expired.calls⟩ else expired.db.findAndTouch key now

def lookupWrite (db : Database) (key : Bytes) (now : ℤ) : Outcome (Option Value) :=
  db.lookupRead key now

def setKey (db : Database) (key : Bytes) (value : Value) : Outcome Unit :=
  let inserted := db.dict.insert key value
  ⟨(),⟨inserted.1,(db.expires.erase key).1⟩,if inserted.2 then [.added key] else []⟩

def overwriteValue (db : Database) (key : Bytes) (value : Value) : Outcome Unit :=
  let inserted := db.dict.insert key value
  ⟨(),{ db with dict := inserted.1 },if inserted.2 then [.added key] else []⟩

def update (db : Database) (key : Bytes) (value : Value) : Database :=
  { db with dict := db.dict.assign key value }

def erase (db : Database) (key : Bytes) : Bool×Database :=
  ((db.dict.erase key).2,⟨(db.dict.erase key).1,(db.expires.erase key).1⟩)

def exists_ (db : Database) (key : Bytes) (now : ℤ) : Outcome Bool :=
  let found := db.lookupRead key now
  ⟨found.result.isSome,found.db,found.calls⟩

def size (db : Database) : ℕ := db.dict.size

def expiresSize (db : Database) : ℕ := db.expires.size

def setExpireAt (db : Database) (key : Bytes) (at_ : ℤ) : Database :=
  { db with expires := (db.expires.insert key at_).1 }

def persist (db : Database) (key : Bytes) : Bool×Database :=
  ((db.expires.erase key).2,{ db with expires := (db.expires.erase key).1 })

def expireAtMs (db : Database) (key : Bytes) : ℤ×Database :=
  let found := db.expires.find key
  (found.1.getD (-1),{ db with expires := found.2 })

def ttlMs (db : Database) (key : Bytes) (now : ℤ) : Outcome ℤ :=
  let found := db.lookupRead key now
  match found.result with
  | none => ⟨-2,found.db,found.calls⟩
  | some _ =>
    let deadline := found.db.expireAtMs key
    if deadline.1 < 0 then ⟨-1,deadline.2,found.calls⟩
    else
      let remaining := deadline.1-now
      ⟨if remaining < 0 then 0 else remaining,deadline.2,found.calls⟩

def flush (_ : Database) : Database := init

def kActiveExpireSampleSize : ℕ := 20

def kActiveExpireThresholdPercent : ℕ := 25

def kActiveExpireMaxIterations : ℕ := 16

/-- The sampling loop of `activeExpireCycle`; it ends early when there is no entry. -/
def sample (expires : Dict ℤ) : ℕ → Draws → List (Dict.Entry ℤ)×Draws
  | 0,draws => ([],draws)
  | n+1,draws =>
    match expires.randomEntry draws with
    | (none,draws) => ([],draws)
    | (some e,draws) => (e::(sample expires n draws).1,(sample expires n draws).2)

def doomedOf (now : ℤ) (sampled : List (Dict.Entry ℤ)) : List Bytes :=
  (sampled.filter fun e => e.2 ≤ now).map Sigma.fst

def drop (db : Database) (key : Bytes) : Database :=
  ⟨(db.dict.erase key).1,(db.expires.erase key).1⟩

def expireRounds (now : ℤ) : ℕ → Database → Draws → Outcome ℕ×Draws
  | 0,db,draws => (⟨0,db,[]⟩,draws)
  | iterations+1,db,draws =>
    let remaining := db.expires.size
    if remaining=0 then (⟨0,db,[]⟩,draws)
    else
      let sampled := sample db.expires (min remaining kActiveExpireSampleSize) draws
      let doomed := doomedOf now sampled.1
      let dropped := doomed.foldl drop db
      if sampled.1.length=0 || doomed.length*100/sampled.1.length ≤ kActiveExpireThresholdPercent
      then (⟨doomed.length,dropped,doomed.map .expired⟩,sampled.2)
      else
        let rest := expireRounds now iterations dropped sampled.2
        (⟨doomed.length+rest.1.result,rest.1.db,doomed.map .expired++rest.1.calls⟩,rest.2)

def activeExpireCycle (db : Database) (now : ℤ) (draws : Draws) : Outcome ℕ×Draws :=
  if db.expires.size=0 then (⟨0,db,[]⟩,draws)
  else expireRounds now kActiveExpireMaxIterations db draws

def randomKeyLoop (now : ℤ) : ℕ → Database → Draws → Outcome (Option Bytes)×Draws
  | 0,db,draws => (⟨none,db,[]⟩,draws)
  | attempts+1,db,draws =>
    match db.dict.randomEntry draws with
    | (none,draws) => (⟨none,db,[]⟩,draws)
    | (some e,draws) =>
      let expired := db.expireIfNeeded e.1 now
      if expired.result then
        let rest := randomKeyLoop now attempts expired.db draws
        (⟨rest.1.result,rest.1.db,expired.calls++rest.1.calls⟩,rest.2)
      else (⟨some e.1,expired.db,expired.calls⟩,draws)

def randomKey (db : Database) (now : ℤ) (draws : Draws) : Outcome (Option Bytes)×Draws :=
  randomKeyLoop now 100 db draws

def keys (db : Database) : List Bytes := db.dict.entries.map Sigma.fst

def incrementalRehash (db : Database) (buckets : ℤ) : Database :=
  { db with dict := db.dict.rehashSteps buckets }

section Views

variable (db : Database) (key k : Bytes) (now : ℤ)

def Due : Prop := ∃ t,db.expires.lookup key=some t ∧ t ≤ now

instance : Decidable (db.Due key now) :=
  match h : db.expires.lookup key with
  | none => .isFalse fun ⟨_,ht,_⟩ => by rw [h] at ht; cases ht
  | some t =>
    if ht : t ≤ now then .isTrue ⟨t,h,ht⟩
    else .isFalse fun ⟨t',ht',hle⟩ => by rw [h] at ht'; cases ht'; exact ht hle

variable {db key now}

theorem Due.isSome (h : db.Due key now) : (db.expires.lookup key).isSome := by
  obtain ⟨t,ht,-⟩ := h
  rw [ht]
  rfl

theorem Due.mono {later : ℤ} (h : db.Due key now) (hle : now ≤ later) : db.Due key later := by
  obtain ⟨t,ht,htn⟩ := h
  exact ⟨t,ht,htn.trans hle⟩

theorem due_congr {db' : Database} (h : db.expires.lookup key=db'.expires.lookup key) :
    db.Due key now ↔ db'.Due key now := by
  rw [Due,Due,h]

theorem expireIfNeeded_due (h : db.Due key now) :
    db.expireIfNeeded key now=
      ⟨true,⟨(db.dict.erase key).1,((db.expires.find key).2.erase key).1⟩,[.expired key]⟩ := by
  obtain ⟨t,ht,hle⟩ := h
  rw [expireIfNeeded,Dict.find_fst,ht]
  exact if_neg (not_lt.mpr hle)

theorem expireIfNeeded_not_due (h : ¬db.Due key now) :
    db.expireIfNeeded key now=⟨false,{ db with expires := (db.expires.find key).2 },[]⟩ := by
  rw [expireIfNeeded,Dict.find_fst]
  cases ht : db.expires.lookup key with
  | none => rfl
  | some t => exact if_pos (not_le.mp fun hle => h ⟨t,ht,hle⟩)

variable (db key now)

@[simp] theorem expireIfNeeded_result :
    (db.expireIfNeeded key now).result=decide (db.Due key now) := by
  by_cases h : db.Due key now
  · rw [expireIfNeeded_due h,decide_eq_true h]
  · rw [expireIfNeeded_not_due h,decide_eq_false h]

@[simp] theorem expireIfNeeded_calls :
    (db.expireIfNeeded key now).calls=if db.Due key now then [.expired key] else [] := by
  by_cases h : db.Due key now
  · rw [expireIfNeeded_due h,if_pos h]
  · rw [expireIfNeeded_not_due h,if_neg h]

@[simp] theorem expireIfNeeded_dict :
    (db.expireIfNeeded key now).db.dict.lookup k=
      if k=key ∧ db.Due key now then none else db.dict.lookup k := by
  by_cases h : db.Due key now
  · rw [expireIfNeeded_due h,Dict.lookup_erase]
    simp only [h,and_true]
  · rw [expireIfNeeded_not_due h]
    simp only [h,and_false,if_false]

@[simp] theorem expireIfNeeded_expires :
    (db.expireIfNeeded key now).db.expires.lookup k=
      if k=key ∧ db.Due key now then none else db.expires.lookup k := by
  by_cases h : db.Due key now
  · rw [expireIfNeeded_due h,Dict.lookup_erase,Dict.lookup_find]
    simp only [h,and_true]
  · rw [expireIfNeeded_not_due h,Dict.lookup_find]
    simp only [h,and_false,if_false]

@[simp] theorem findAndTouch_result :
    (db.findAndTouch key now).result=(db.dict.lookup key).map (Value.touch · now) := by
  rw [findAndTouch,Dict.find_fst]
  cases db.dict.lookup key <;> rfl

@[simp] theorem findAndTouch_calls : (db.findAndTouch key now).calls=[] := by
  rw [findAndTouch]
  cases (Dict.find _ key).1 <;> rfl

@[simp] theorem findAndTouch_expires : (db.findAndTouch key now).db.expires=db.expires := by
  rw [findAndTouch]
  cases (Dict.find _ key).1 <;> rfl

@[simp] theorem findAndTouch_dict :
    (db.findAndTouch key now).db.dict.lookup k=
      if k=key then (db.dict.lookup key).map (Value.touch · now) else db.dict.lookup k := by
  rw [findAndTouch,Dict.find_fst]
  by_cases hk : k=key
  · subst hk
    cases hv : db.dict.lookup k <;> simp [hv]
  · cases hv : db.dict.lookup key <;> simp [hk]

variable {db key now}

theorem lookupRead_due (h : db.Due key now) : db.lookupRead key now=
    ⟨none,(db.expireIfNeeded key now).db,(db.expireIfNeeded key now).calls⟩ := by
  rw [lookupRead,expireIfNeeded_result]
  exact if_pos (decide_eq_true h)

theorem lookupRead_not_due (h : ¬db.Due key now) : db.lookupRead key now=
    (db.expireIfNeeded key now).db.findAndTouch key now := by
  rw [lookupRead,expireIfNeeded_result]
  exact if_neg fun hc => h (of_decide_eq_true hc)

variable (db key now)

def live : Option Value := if db.Due key now then none else db.dict.lookup key

@[simp] theorem lookupRead_result :
    (db.lookupRead key now).result=(db.live key now).map (Value.touch · now) := by
  by_cases h : db.Due key now
  · rw [lookupRead_due h,live,if_pos h]
    rfl
  · rw [lookupRead_not_due h,live,if_neg h,findAndTouch_result,expireIfNeeded_dict,
      if_neg fun hc => h hc.2]

@[simp] theorem lookupRead_calls :
    (db.lookupRead key now).calls=if db.Due key now then [.expired key] else [] := by
  by_cases h : db.Due key now
  · rw [lookupRead_due h,expireIfNeeded_calls]
  · rw [lookupRead_not_due h,findAndTouch_calls,if_neg h]

@[simp] theorem lookupRead_dict :
    (db.lookupRead key now).db.dict.lookup k=
      if k=key then (db.live key now).map (Value.touch · now) else db.dict.lookup k := by
  by_cases h : db.Due key now
  · rw [lookupRead_due h,live,if_pos h,expireIfNeeded_dict]
    simp only [h,and_true,Option.map_none]
  · rw [lookupRead_not_due h,live,if_neg h,findAndTouch_dict,expireIfNeeded_dict,
      expireIfNeeded_dict]
    simp only [h,and_false,if_false]

@[simp] theorem lookupRead_expires :
    (db.lookupRead key now).db.expires.lookup k=
      if k=key ∧ db.Due key now then none else db.expires.lookup k := by
  by_cases h : db.Due key now
  · rw [lookupRead_due h,expireIfNeeded_expires]
  · rw [lookupRead_not_due h,findAndTouch_expires,expireIfNeeded_expires]

@[simp] theorem expireAtMs_fst : (db.expireAtMs key).1=(db.expires.lookup key).getD (-1) := by
  rw [expireAtMs,Dict.find_fst]

@[simp] theorem expireAtMs_expires :
    (db.expireAtMs key).2.expires.lookup k=db.expires.lookup k := by
  rw [expireAtMs,Dict.lookup_find]

theorem exists_eq : db.exists_ key now=
    ⟨(db.live key now).isSome,(db.lookupRead key now).db,(db.lookupRead key now).calls⟩ := by
  rw [exists_,lookupRead_result,Option.isSome_map]

end Views

end Database

end Mnemos
