import Mnemos.ZSetCommands

/-!
# Key commands

The handlers of `server/commands/keyspace_commands.cpp`, and `DUMP` and
`RESTORE`.
-/

namespace Mnemos.Commands

open Cmd

def delLoop : List Bytes → Cmd ℕ
  | [] => pure 0
  | key::rest => do
    let found ← lookupRead key
    match found with
    | none => delLoop rest
    | some _ => do
      let erased ← eraseKey key
      if erased then
        notify Notify.kGeneric "del" key
        let n ← delLoop rest
        pure (n+1)
      else delLoop rest

def del (argv : List Bytes) : Cmd Response := do
  let removed ← delLoop (argv.drop 1)
  if 0 < removed then markDirty removed
  pure (.integer removed)

def unlink (argv : List Bytes) : Cmd Response := del argv

def existsLoop : List Bytes → Cmd ℕ
  | [] => pure 0
  | key::rest => do
    let present ← existsKey key
    if present then
      let n ← existsLoop rest
      pure (n+1)
    else
      notifyKeyMiss key
      existsLoop rest

def exists_ (argv : List Bytes) : Cmd Response := do
  let count ← existsLoop (argv.drop 1)
  pure (.integer count)

def typeOf : Option Value → Bytes
  | some v => typeName v.type
  | none => ascii "none"

def type (argv : List Bytes) : Cmd Response := do
  let v ← lookupRead (arg argv 1)
  missIfNone (arg argv 1) v
  pure (.token (.simpleString (typeOf v)))

def touchLoop : List Bytes → Cmd ℕ
  | [] => pure 0
  | key::rest => do
    let found ← lookupRead key
    match found with
    | some _ => do
      let n ← touchLoop rest
      pure (n+1)
    | none => do
      notifyKeyMiss key
      touchLoop rest

def touch (argv : List Bytes) : Cmd Response := do
  let count ← touchLoop (argv.drop 1)
  pure (.integer count)

def liveKeys (named : Bytes → Bool) (typed : Value → Bool) : List Bytes → Cmd (List Bytes)
  | [] => pure []
  | key::rest =>
    if !named key then liveKeys named typed rest
    else do
      let found ← lookupRead key
      let others ← liveKeys named typed rest
      pure (if found.any typed then key::others else others)

def keys (argv : List Bytes) : Cmd Response := do
  let everything ← allKeys
  let found ← liveKeys (globMatch (arg argv 1) · false) (fun _ => true) everything
  pure (.tokens (bulkArray found))

def leadingNumber (s : Bytes) : Option ℕ :=
  let digits := s.takeWhile isDigit
  if digits=[] then none else some (digits.foldl (fun n d => n*10+(d.toNat-48)) 0)

/-- `std::stoull`, where what follows the number is ignored; none when it throws. -/
def stoull (s : Bytes) : Option UInt64 :=
  let s := s.dropWhile isSpace
  let negative := s.head?==some 45
  let digits := if negative || s.head?==some 43 then s.tail else s
  match leadingNumber digits with
  | none => none
  | some n =>
    if 2^64 ≤ n then none
    else some (if negative then 0-UInt64.ofNat n else UInt64.ofNat n)

def kDefaultScanCount : ℤ := 10

def kMaxScanIterations : ℕ := 10000

structure ScanOptions where
  pattern : Option Bytes
  count : ℤ
  typeFilter : Bytes

def parseScan : List Bytes → ScanOptions → Except Response ScanOptions
  | [],o => .ok o
  | [_],_ => .error .syntaxError
  | word::value::rest,o =>
    if isWord word "MATCH" then parseScan rest { o with pattern := some value }
    else if isWord word "COUNT" then
      match stringToInt64 value with
      | none => .error .syntaxError
      | some count =>
        if count < 1 then .error .syntaxError else parseScan rest { o with count := count }
    else if isWord word "TYPE" then parseScan rest { o with typeFilter := toLower value }
    else .error .syntaxError

def scanLoop (count : ℤ) : ℕ → UInt64 → List Bytes → Cmd (List Bytes×UInt64)
  | 0,cursor,collected => pure (collected,cursor)
  | fuel+1,cursor,collected => do
    let page ← scanPage cursor
    let collected := collected++page.1
    if page.2≠0 ∧ (collected.length : ℤ) < count then scanLoop count fuel page.2 collected
    else pure (collected,page.2)

def scan (argv : List Bytes) : Cmd Response :=
  match stoull (arg argv 1) with
  | none => pure (.err "ERR invalid cursor")
  | some cursor =>
    match parseScan (argv.drop 2) ⟨none,kDefaultScanCount,[]⟩ with
    | .error e => pure e
    | .ok o => do
      let page ← scanLoop o.count kMaxScanIterations cursor []
      let results ← liveKeys (fun key => o.pattern.all (globMatch · key false))
        (fun v => o.typeFilter=[] || typeName v.type==o.typeFilter) page.1
      pure (.tokens (.arrayHeader 2::.bulk (natDecimal page.2.toNat)::bulkArray results))

def randomkey (_ : List Bytes) : Cmd Response := do
  let key ← Cmd.randomKey
  pure (bulkOrNull key)

section Text

variable [Platform]

def renameGeneric (failIfExists : Bool) (argv : List Bytes) : Cmd Response := do
  let src := arg argv 1
  let dst := arg argv 2
  let source ← lookupWrite src
  match source with
  | none => pure (.err "ERR no such key")
  | some source =>
    if src=dst then pure (if failIfExists then .integer 0 else .ok)
    else
      let taken ← if failIfExists then lookupWrite dst else pure none
      if taken.isSome then pure (.integer 0)
      else
        let moved ← random source.copy
        let expireAt ← expireAtMs src
        let _ ← eraseKey src
        setKey dst moved
        if 0 ≤ expireAt then setExpireAt dst expireAt
        markDirty 1
        notify Notify.kGeneric "rename_from" src
        notify Notify.kGeneric "rename_to" dst
        pure (if failIfExists then .integer 1 else .ok)

def rename (argv : List Bytes) : Cmd Response := renameGeneric false argv
def renamenx (argv : List Bytes) : Cmd Response := renameGeneric true argv

/-- The option loop of `copy`: whether to replace, and the target database. -/
def parseCopy (count : ℕ) : List Bytes → Bool×ℕ → Except Response (Bool×ℕ)
  | [],o => .ok o
  | word::rest,o =>
    if isWord word "REPLACE" then parseCopy count rest (true,o.2)
    else if isWord word "DB" then
      match rest with
      | [] => .error .syntaxError
      | text::rest =>
        match stringToInt64 text with
        | none => .error (.err "ERR DB index is out of range")
        | some n =>
          if n < 0 ∨ (count : ℤ) ≤ n then .error (.err "ERR DB index is out of range")
          else parseCopy count rest (o.1,n.toNat)
    else .error .syntaxError

def copyInto (source : Value) (src dst : Bytes) (target : ℕ) : Cmd Response := do
  let copied ← random source.copy
  let expireAt ← expireAtMs src
  inDb target (setKey dst copied)
  if 0 ≤ expireAt then inDb target (setExpireAt dst expireAt)
  markDirty 1
  inDb target (notify Notify.kGeneric "copy_to" dst)
  pure (.integer 1)

def copy (argv : List Bytes) : Cmd Response := do
  let src := arg argv 1
  let dst := arg argv 2
  let count ← databaseCount
  let own ← dbIndex
  match parseCopy count (argv.drop 3) (false,own) with
  | .error e => pure e
  | .ok o =>
    if o.2=own ∧ src=dst then pure (.err "ERR source and destination objects are the same")
    else
      let source ← lookupRead src
      missIfNone src source
      match source with
      | none => pure (.integer 0)
      | some source =>
        let taken ← if o.1 then pure none else inDb o.2 (lookupRead dst)
        if taken.isSome then pure (.integer 0) else copyInto source src dst o.2

structure ExpireFlags where
  nx : Bool
  xx : Bool
  gt : Bool
  lt : Bool

def parseExpireFlags : List Bytes → ExpireFlags → Except Response ExpireFlags
  | [],f => .ok f
  | word::rest,f =>
    if isWord word "NX" then parseExpireFlags rest { f with nx := true }
    else if isWord word "XX" then parseExpireFlags rest { f with xx := true }
    else if isWord word "GT" then parseExpireFlags rest { f with gt := true }
    else if isWord word "LT" then parseExpireFlags rest { f with lt := true }
    else .error (.error (ascii "ERR Unsupported option "++word))

def parseExpire (argv : List Bytes) : Except Response (ℤ×ExpireFlags) :=
  match stringToInt64 (arg argv 2) with
  | none => .error .notAnInteger
  | some raw =>
    match parseExpireFlags (argv.drop 3) ⟨false,false,false,false⟩ with
    | .error e => .error e
    | .ok f =>
      if f.gt && f.lt || f.nx && (f.xx || f.gt || f.lt) then
        .error (.err "ERR NX and XX, GT or LT options at the same time are not compatible")
      else .ok (raw,f)

/-- The deadline of `expireGeneric`, with its overflow checks; division truncates. -/
def expireDeadline (unit : ℤ) (absolute : Bool) (raw now : ℤ) : Option ℤ :=
  if int64Max.tdiv unit < raw ∨ raw < int64Min.tdiv unit then none
  else if absolute then some (raw*unit)
  else if int64 (int64Max-now) < raw*unit then none
  else some (int64 (raw*unit+now))

def ExpireFlags.refuses (f : ExpireFlags) (current at_ : ℤ) : Bool :=
  f.nx && 0 ≤ current || f.xx && current < 0 ||
    f.gt && (current < 0 || at_ ≤ current) || f.lt && 0 ≤ current && current ≤ at_

/-- The end of `expireGeneric`: a deadline that is not ahead deletes the key. -/
def applyDeadline (key : Bytes) (at_ : ℤ) : Cmd Response := do
  let now ← nowMs
  if at_ ≤ now then
    let _ ← eraseKey key
    markDirty 1
    notify Notify.kGeneric "del" key
    pure (.integer 1)
  else
    setExpireAt key at_
    markDirty 1
    notify Notify.kGeneric "expire" key
    pure (.integer 1)

def expireGeneric (unit : ℤ) (absolute : Bool) (command : String) (argv : List Bytes) :
    Cmd Response :=
  let key := arg argv 1
  match parseExpire argv with
  | .error e => pure e
  | .ok p => do
    let found ← lookupWrite key
    match found with
    | none => pure (.integer 0)
    | some _ =>
      let now ← nowMs
      match expireDeadline unit absolute p.1 now with
      | none => pure (ParseResult.invalidExpire.response command)
      | some at_ =>
        let current ← expireAtMs key
        if p.2.refuses current at_ then pure (.integer 0) else applyDeadline key at_

def expire (argv : List Bytes) : Cmd Response := expireGeneric 1000 false "expire" argv
def pexpire (argv : List Bytes) : Cmd Response := expireGeneric 1 false "pexpire" argv
def expireat (argv : List Bytes) : Cmd Response := expireGeneric 1000 true "expireat" argv
def pexpireat (argv : List Bytes) : Cmd Response := expireGeneric 1 true "pexpireat" argv

def ttlGeneric (milliseconds : Bool) (argv : List Bytes) : Cmd Response := do
  let ms ← Cmd.ttlMs (arg argv 1)
  if ms < 0 then
    if ms=-2 then notifyKeyMiss (arg argv 1)
    pure (.integer ms)
  else pure (.integer (if milliseconds then ms else (int64 (ms+500)).tdiv 1000))

def ttl (argv : List Bytes) : Cmd Response := ttlGeneric false argv
def pttl (argv : List Bytes) : Cmd Response := ttlGeneric true argv

def expireTimeGeneric (milliseconds : Bool) (argv : List Bytes) : Cmd Response := do
  let found ← lookupRead (arg argv 1)
  missIfNone (arg argv 1) found
  match found with
  | none => pure (.integer (-2))
  | some _ =>
    let at_ ← Cmd.expireAtMs (arg argv 1)
    pure (.integer (if at_ < 0 then -1 else if milliseconds then at_ else at_/1000))

def expiretime (argv : List Bytes) : Cmd Response := expireTimeGeneric false argv
def pexpiretime (argv : List Bytes) : Cmd Response := expireTimeGeneric true argv

def persist (argv : List Bytes) : Cmd Response := do
  let key := arg argv 1
  let found ← lookupWrite key
  match found with
  | none => pure (.integer 0)
  | some _ =>
    let removed ← persistKey key
    if removed then
      markDirty 1
      notify Notify.kGeneric "persist" key
    pure (.integer (if removed then 1 else 0))

def dbsize (_ : List Bytes) : Cmd Response := do
  let n ← dbSize
  pure (.integer n)

def dump (argv : List Bytes) : Cmd Response := do
  let found ← lookupRead (arg argv 1)
  missIfNone (arg argv 1) found
  match found with
  | none => pure .nullBulk
  | some v => pure (.bulk (Rdb.dumpPayload v))

def parseRestore : List Bytes → Bool×Bool → Except Response (Bool×Bool)
  | [],o => .ok o
  | word::rest,o =>
    if isWord word "REPLACE" then parseRestore rest (true,o.2)
    else if isWord word "ABSTTL" then parseRestore rest (o.1,true)
    else
      match rest with
      | [] => .error .syntaxError
      | text::rest =>
        if isWord word "IDLETIME" then
          match stringToInt64 text with
          | none => .error .notAnInteger
          | some n => if n < 0 then .error .invalidIdletime else parseRestore rest o
        else if isWord word "FREQ" then
          match stringToInt64 text with
          | none => .error .notAnInteger
          | some n => if n < 0 ∨ 255 < n then .error .invalidFreq else parseRestore rest o
        else .error .syntaxError

def storeRestored (key : Bytes) (existed absttl : Bool) (ttl : ℤ) (value : Value) :
    Cmd Response := do
  if existed then
    let _ ← eraseKey key
  setKey key value
  let now ← nowMs
  if 0 < ttl then setExpireAt key (if absttl then ttl else int64 (now+ttl))
  markDirty 1
  notify Notify.kGeneric "restore" key
  pure .ok

def loadRestored (payload : Bytes) (draws : Draws) : Except Failure Value×Draws :=
  match Rdb.loadPayload payload draws with
  | .ok r => (.ok r.1,r.2)
  | .error e => (.error e,draws)

def restoreLoaded (key : Bytes) (existed absttl : Bool) (ttl : ℤ) :
    Except Failure Value → Cmd Response
  | .error .rejected => pure .badDataFormat
  | .error .raised => pure .terminated
  | .ok value => storeRestored key existed absttl ttl value

def restorePayload (key payload : Bytes) (existed absttl : Bool) (ttl : ℤ) : Cmd Response :=
  if !Rdb.payloadFooterOk payload then pure .badDumpPayload
  else do
    let loaded ← random (loadRestored payload)
    restoreLoaded key existed absttl ttl loaded

def restoreChecked (argv : List Bytes) (o : Bool×Bool) (existed : Bool) : Cmd Response :=
  if existed && !o.1 then pure .busyKey
  else
    match stringToInt64 (arg argv 2) with
    | none => pure .notAnInteger
    | some ttl =>
      if ttl < 0 then pure .invalidRestoreTtl
      else restorePayload (arg argv 1) (arg argv 3) existed o.2 ttl

def restore (argv : List Bytes) : Cmd Response :=
  match parseRestore (argv.drop 4) (false,false) with
  | .error e => pure e
  | .ok o => do
    let existing ← lookupWrite (arg argv 1)
    restoreChecked argv o existing.isSome

end Text

end Mnemos.Commands

/-! ## Random keys -/

open List

namespace Mnemos

namespace Database

variable {db : Database} {key : Bytes} {now : ℤ}

def dueKeys (db : Database) (now : ℤ) : List Bytes := db.keys.filter (db.Due · now)

theorem mem_keys : key∈db.keys ↔ (db.dict.lookup key).isSome := by
  exact dlookup_isSome.symm

theorem mem_dueKeys : key∈db.dueKeys now ↔ (db.dict.lookup key).isSome ∧ db.Due key now := by
  rw [dueKeys,mem_filter,mem_keys,decide_eq_true_eq]

theorem nodup_dueKeys : (db.dueKeys now).Nodup :=
  Nodup.filter _ db.dict.entries_nodupKeys

theorem live_expireIfNeeded (hdue : db.Due key now) (k : Bytes) :
    (db.expireIfNeeded key now).db.live k now=db.live k now := by
  by_cases hk : k=key
  · subst hk
    simp [live,hdue]
  · have hsame : (db.expireIfNeeded key now).db.Due k now ↔ db.Due k now :=
      due_congr (by simp [hk])
    simp [live,hsame,hk]

theorem dueKeys_expireIfNeeded (h : key∈db.dueKeys now) :
    ((db.expireIfNeeded key now).db.dueKeys now).length+1=(db.dueKeys now).length := by
  have hperm : (db.expireIfNeeded key now).db.dueKeys now ~ (db.dueKeys now).erase key := by
    refine (perm_ext_iff_of_nodup nodup_dueKeys (nodup_dueKeys.erase key)).mpr fun k => ?_
    rw [nodup_dueKeys.mem_erase_iff,mem_dueKeys,mem_dueKeys]
    by_cases hk : k=key
    · subst hk
      simp [(mem_dueKeys.mp h).2]
    · simp [Due,hk]
  rw [hperm.length_eq,length_erase_of_mem h]
  have := length_pos_of_mem h
  omega

/-- What is returned is live, and nothing is returned only without a live key, if the attempts
suffice. -/
theorem randomKeyLoop_live (attempts : ℕ) (db : Database) (draws : Draws) :
    (∀ key∈(randomKeyLoop now attempts db draws).1.result,(db.live key now).isSome) ∧
      ((db.dueKeys now).length < attempts → (randomKeyLoop now attempts db draws).1.result=none →
        ∀ key,db.live key now=none) := by
  induction attempts generalizing db draws with
  | zero => exact ⟨fun _ h => (by cases h),fun h => absurd h (Nat.not_lt_zero _)⟩
  | succ attempts ih =>
    rw [randomKeyLoop]
    cases hdrawn : db.dict.randomEntry draws with
    | mk found rest =>
    cases found with
    | none =>
      refine ⟨fun _ h => (by cases h),fun _ _ key => ?_⟩
      have hempty := Dict.entries_of_randomEntry (congrArg Prod.fst hdrawn)
      have hnone : db.dict.lookup key=none := by rw [Dict.lookup,hempty,dlookup_nil]
      rw [live,hnone,ite_self]
    | some e =>
      have hfound := Dict.mem_entries.mp (Dict.randomEntry_mem (congrArg Prod.fst hdrawn))
      by_cases hdue : db.Due e.1 now
      · have hmem : e.1∈db.dueKeys now := mem_dueKeys.mpr ⟨by rw [hfound]; rfl,hdue⟩
        have hless := dueKeys_expireIfNeeded hmem
        obtain ⟨hlive,hnone⟩ := ih (db.expireIfNeeded e.1 now).db rest
        simp only [live_expireIfNeeded hdue] at hlive hnone
        simp only [expireIfNeeded_result,hdue,decide_true,if_true]
        exact ⟨hlive,fun h => hnone (by omega)⟩
      · simp only [expireIfNeeded_result,hdue,decide_false,Bool.false_eq_true,if_false]
        refine ⟨fun key hkey => ?_,fun _ h => by cases h⟩
        obtain rfl : e.1=key := Option.some.inj hkey
        rw [live,if_neg hdue,hfound]
        rfl

theorem exists_randomKeyLoop_none (attempts : ℕ) (db : Database)
    (h : attempts ≤ (db.dueKeys now).length) :
    ∃ draws,(randomKeyLoop now attempts db draws).1.result=none := by
  induction attempts generalizing db with
  | zero => exact ⟨Stream'.const 0,rfl⟩
  | succ attempts ih =>
    obtain ⟨key,hkey⟩ := exists_mem_of_length_pos (Nat.zero_lt_of_lt h)
    obtain ⟨hsome,hdue⟩ := mem_dueKeys.mp hkey
    obtain ⟨v,hv⟩ := Option.isSome_iff_exists.mp hsome
    have hless := dueKeys_expireIfNeeded hkey
    obtain ⟨rest,hrest⟩ := ih (db.expireIfNeeded key now).db (by omega)
    obtain ⟨draws,hdrawn⟩ := Dict.exists_randomEntry (Dict.mem_entries.mpr hv) rest
    refine ⟨draws,?_⟩
    rw [randomKeyLoop,hdrawn]
    simp only [expireIfNeeded_result,hdue,decide_true,if_true]
    exact hrest

end Database

namespace Commands

/-- Null without a live key in the selected database, and a live key otherwise. -/
def AnswersLive (ctx : Context) (s : Keyspace) (reply : Response) : Prop :=
  (∀ key,(s.slots (ctx.db,key)).live ctx.now=none) ∧ reply=.nullBulk ∨
    ∃ key,((s.slots (ctx.db,key)).live ctx.now).isSome ∧ reply=.bulk key

variable (argv : List Bytes) (ctx : Context) (s : Keyspace)

theorem randomkey_reply (draws : Draws) : (randomkey argv ctx { s with draws := draws }).1=
    bulkOrNull (Database.randomKeyLoop ctx.now 100 (s.databases ctx.db) draws).1.result := rfl

theorem exists_randomkey_null (h : 100 ≤ ((s.databases ctx.db).dueKeys ctx.now).length) :
    ∃ draws,(randomkey argv ctx { s with draws := draws }).1=.nullBulk := by
  obtain ⟨draws,hnone⟩ := Database.exists_randomKeyLoop_none 100 _ h
  refine ⟨draws,?_⟩
  rw [randomkey_reply,hnone]
  rfl

/-- **RANDOMKEY**: it finds a live key if there is one, whatever is drawn, exactly when there is none
or fewer than a hundred keys of the database are past their deadline. -/
theorem randomkey_live_iff :
    (∀ draws,AnswersLive ctx s (randomkey argv ctx { s with draws := draws }).1) ↔
      (∀ key,(s.slots (ctx.db,key)).live ctx.now=none) ∨
        ((s.databases ctx.db).dueKeys ctx.now).length < 100 := by
  constructor
  · intro h
    by_contra hmany
    rw [not_or,not_lt] at hmany
    obtain ⟨draws,hnull⟩ := exists_randomkey_null argv ctx s hmany.2
    rcases h draws with ⟨hempty,-⟩ | ⟨key,-,hkey⟩
    · exact hmany.1 hempty
    · rw [hnull] at hkey
      cases hkey
  · intro h draws
    obtain ⟨hlive,hnone⟩ := @Database.randomKeyLoop_live ctx.now 100 (s.databases ctx.db) draws
    simp only [AnswersLive,s.live_slots,Option.map_eq_none_iff,Option.isSome_map] at h ⊢
    rw [randomkey_reply]
    cases hresult : (Database.randomKeyLoop ctx.now 100 (s.databases ctx.db) draws).1.result with
    | none => exact .inl ⟨h.elim id fun hfew => hnone hfew hresult,rfl⟩
    | some key => exact .inr ⟨key,hlive key hresult,rfl⟩

def expiring (db : Database) (keys : List Bytes) : Database :=
  keys.foldl (fun db key => (db.setKey key (.makeString [])).db.setExpireAt key 0) db

theorem expiring_lookup (keys : List Bytes) (db : Database) (k : Bytes) :
    (expiring db keys).dict.lookup k=(if k∈keys then some (.makeString []) else db.dict.lookup k) ∧
      (expiring db keys).expires.lookup k=if k∈keys then some 0 else db.expires.lookup k := by
  induction keys generalizing db with
  | nil => simp [expiring]
  | cons key rest ih =>
    obtain ⟨hvalue,hdeadline⟩ := ih ((db.setKey key (.makeString [])).db.setExpireAt key 0)
    rw [expiring,foldl_cons,← expiring,hvalue,hdeadline]
    by_cases hrest : k∈rest <;> by_cases hkey : k=key <;>
      simp [hrest,hkey,Database.setKey,Database.setExpireAt]

def crowd : Keyspace := { blank with
  databases := fun _ => expiring (Database.init.setKey (ascii "live") (.makeString [])).db
    ((range 100).map fun i => [UInt8.ofNat i]) }

/-- Draws that find the hundred keys: null, although there is a live key. -/
theorem randomkey_misses : ∃ draws,
    (randomkey [ascii "RANDOMKEY"] ⟨1,0,2⟩ { crowd with draws := draws }).1=.nullBulk ∧
      ((crowd.slots (0,ascii "live")).live 1).isSome := by
  have hlookup := expiring_lookup ((range 100).map fun i => [UInt8.ofNat i])
    (Database.init.setKey (ascii "live") (.makeString [])).db
  have hmany : 100 ≤ ((crowd.databases 0).dueKeys 1).length := by
    have hnodup : ((range 100).map fun i => [UInt8.ofNat i]).Nodup := by decide +kernel
    refine (subperm_of_subset hnodup fun k hk => ?_).length_le
    rw [Database.mem_dueKeys,Database.Due,crowd,(hlookup k).1,(hlookup k).2,if_pos hk,if_pos hk]
    exact ⟨rfl,0,rfl,by decide⟩
  obtain ⟨draws,hnull⟩ := exists_randomkey_null [ascii "RANDOMKEY"] ⟨1,0,2⟩ crowd hmany
  refine ⟨draws,hnull,?_⟩
  have hnew : ascii "live"∉(range 100).map fun i => [UInt8.ofNat i] := by decide +kernel
  have hslot : crowd.slots (0,ascii "live")=⟨some (Value.makeString []).data,none⟩ := by
    rw [Keyspace.slots,crowd,(hlookup _).1,(hlookup _).2,if_neg hnew,if_neg hnew]
    simp [Database.setKey,Database.init]
  rw [hslot]
  rfl

end Commands

end Mnemos
