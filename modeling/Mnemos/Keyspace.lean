import Mnemos.Database
import Mnemos.Replies

/-!
# The state that data commands work on

A data command reads and writes the numbered databases through the operations
of `server/db.cpp`, raises events and counts changes.
-/

namespace Mnemos

structure LongDouble where
  bits : BitVec 128
deriving DecidableEq

class Platform extends FloatText where
  /-- C `strtod`: the number and how many bytes of the text it takes. -/
  strtodPrefix : Bytes → Double×ℕ
  add : Double → Double → Double
  mul : Double → Double → Double
  /-- C `strtold`: the number and how many bytes of the text it takes. -/
  strtold : Bytes → LongDouble×ℕ
  addLong : LongDouble → LongDouble → LongDouble
  isNaNLong : LongDouble → Bool
  isInfLong : LongDouble → Bool
  zeroLong : LongDouble
  /-- The string built from what `snprintf` with `%.17Lf` reports. -/
  fixed17 : LongDouble → Bytes
  /-- Actual `memoryUsage`, which counts the capacity of strings. -/
  memoryUsage : Value → ℕ

def cString (s : Bytes) : Bytes := s.takeWhile (· != 0)

/-- `strtold` on an argument that has to be a number as a whole. -/
def parseLongDouble [Platform] (s : Bytes) : Option LongDouble :=
  let r := Platform.strtold (cString s)
  if r.2=0 || r.2 != (cString s).length || Platform.isNaNLong r.1 then none else some r.1

/-- Dropping the zeros at the end of a fraction, and the point if nothing follows it. -/
def trimFraction (s : Bytes) : Bytes :=
  if s.contains 46 then
    let kept := (s.reverse.dropWhile (·==48)).reverse
    if kept.getLast?==some 46 then kept.dropLast else kept
  else s

def formatLongDouble [Platform] (value : LongDouble) : Bytes :=
  let s := trimFraction (Platform.fixed17 value)
  if s=ascii "-0" then ascii "0" else s

def int64 (n : ℤ) : ℤ := Int.bmod n (2^64)

def int64Max : ℤ := 2^63-1

def int64Min : ℤ := -2^63

/-! ## The state that data commands work on -/

/-! ## Event classes of `server/notify.h` -/

structure Event where
  eventClass : UInt32
  name : Bytes
  key : Bytes
  db : ℕ
deriving DecidableEq

namespace Notify

def kKeyspace : UInt32 := 0x1
def kKeyevent : UInt32 := 0x2
def kGeneric : UInt32 := 0x4
def kString : UInt32 := 0x8
def kList : UInt32 := 0x10
def kSet : UInt32 := 0x20
def kHash : UInt32 := 0x40
def kZset : UInt32 := 0x80
def kExpired : UInt32 := 0x100
def kEvicted : UInt32 := 0x200
def kStream : UInt32 := 0x400
def kModule : UInt32 := 0x800
def kNew : UInt32 := 0x1000
def kKeyMiss : UInt32 := 0x2000
def kClassA : UInt32 := 0x4000
def kClassO : UInt32 := 0x8000
def kClassC : UInt32 := 0x10000
def kClassS : UInt32 := 0x20000
def kClassT : UInt32 := 0x40000
def kClassI : UInt32 := 0x80000
def kClassV : UInt32 := 0x100000

def kInAlias : List (UInt32×Char) :=
  [(kGeneric,'g'),(kString,'$'),(kList,'l'),(kSet,'s'),(kHash,'h'),(kZset,'z'),(kExpired,'x'),
    (kEvicted,'e'),(kStream,'t'),(kModule,'d'),(kNew,'n'),(kClassA,'a'),(kClassO,'o'),
    (kClassC,'c')]

def kOutsideAlias : List (UInt32×Char) :=
  [(kClassS,'S'),(kClassT,'T'),(kClassI,'I'),(kClassV,'V'),(kKeyspace,'K'),(kKeyevent,'E'),
    (kKeyMiss,'m')]

def kAll : UInt32 :=
  kGeneric ||| kString ||| kList ||| kSet ||| kHash ||| kZset ||| kExpired ||| kEvicted |||
    kStream ||| kModule ||| kClassA ||| kClassO ||| kClassC

def bitFor (c : UInt8) : UInt32 :=
  if c=65 then kAll
  else
    match (kInAlias++kOutsideAlias).find? fun p => UInt8.ofNat p.2.toNat==c with
    | some p => p.1
    | none => 0

def parseFlags (spec : Bytes) : Option UInt32 :=
  if spec.all (bitFor · != 0) then some (spec.foldl (fun flags c => flags ||| bitFor c) 0) else none

def letters (flags : UInt32) (table : List (UInt32×Char)) : Bytes :=
  (table.filter fun p => flags &&& p.1 != 0).map fun p => UInt8.ofNat p.2.toNat

def formatFlags (flags : UInt32) : Bytes :=
  (if flags &&& kAll=kAll then ascii "A" else letters flags kInAlias)++letters flags kOutsideAlias

def kClassChars : Bytes := ascii "Ag$lshzxeKEtmdnocaSTIV"

example : (parseFlags (ascii "KEA")).map formatFlags=some (ascii "AKE") := by decide +kernel

end Notify

/-! ## The state that data commands work on -/

def Callback.event (db : ℕ) : Callback → Event
  | .expired key => ⟨Notify.kExpired,ascii "expired",key,db⟩
  | .added key => ⟨Notify.kNew,ascii "new",key,db⟩

structure Keyspace where
  count : ℕ
  /-- The databases; those from `count` on are not used. -/
  databases : ℕ → Database
  draws : Draws
  dirty : ℕ
  hits : ℕ
  misses : ℕ
  events : List Event

structure Context where
  now : ℤ
  db : ℕ
  protover : ℕ

def Cmd (A : Type) : Type := Context → Keyspace → A×Keyspace

instance : Monad Cmd where
  pure a := fun _ s => (a,s)
  bind c f := fun ctx s => f (c ctx s).1 ctx (c ctx s).2

def Keyspace.put {A : Type} (s : Keyspace) (i : ℕ) (out : Database.Outcome A) : Keyspace :=
  { s with
    databases := Function.update s.databases i out.db
    events := s.events++out.calls.map (Callback.event i) }

namespace Cmd

def nowMs : Cmd ℤ := fun ctx s => (ctx.now,s)

def protocolVersion : Cmd ℕ := fun ctx s => (ctx.protover,s)

def databaseCount : Cmd ℕ := fun _ s => (s.count,s)

def dbIndex : Cmd ℕ := fun ctx s => (ctx.db,s)

def inDb {A : Type} (i : ℕ) (c : Cmd A) : Cmd A := fun ctx s => c { ctx with db := i } s

def onDb {A : Type} (op : ℤ → Database → Database.Outcome A) : Cmd A := fun ctx s =>
  let out := op ctx.now (s.databases ctx.db)
  (out.result,s.put ctx.db out)

def lookupRead (key : Bytes) : Cmd (Option Value) := onDb fun now db => db.lookupRead key now

def lookupWrite (key : Bytes) : Cmd (Option Value) := onDb fun now db => db.lookupWrite key now

def existsKey (key : Bytes) : Cmd Bool := onDb fun now db => db.exists_ key now

def setKey (key : Bytes) (value : Value) : Cmd Unit := onDb fun _ db => db.setKey key value

def overwriteValue (key : Bytes) (value : Value) : Cmd Unit :=
  onDb fun _ db => db.overwriteValue key value

def eraseKey (key : Bytes) : Cmd Bool := onDb fun _ db => ⟨(db.erase key).1,(db.erase key).2,[]⟩

def setExpireAt (key : Bytes) (at_ : ℤ) : Cmd Unit :=
  onDb fun _ db => ⟨(),db.setExpireAt key at_,[]⟩

def persistKey (key : Bytes) : Cmd Bool :=
  onDb fun _ db => ⟨(db.persist key).1,(db.persist key).2,[]⟩

def expireAtMs (key : Bytes) : Cmd ℤ :=
  onDb fun _ db => ⟨(db.expireAtMs key).1,(db.expireAtMs key).2,[]⟩

def ttlMs (key : Bytes) : Cmd ℤ := onDb fun now db => db.ttlMs key now

/-- Writing a value through the pointer of a lookup at this time. -/
def store (key : Bytes) (data : Data) : Cmd Unit :=
  onDb fun now db => ⟨(),db.update key ⟨data,now⟩,[]⟩

def allKeys : Cmd (List Bytes) := onDb fun _ db => ⟨db.keys,db,[]⟩

def dbSize : Cmd ℕ := onDb fun _ db => ⟨db.size,db,[]⟩

def scanPage (cursor : UInt64) : Cmd (List Bytes×UInt64) :=
  onDb fun _ db => ⟨((db.dict.scan cursor).1.map Sigma.fst,(db.dict.scan cursor).2),db,[]⟩

def randomKey : Cmd (Option Bytes) := fun ctx s =>
  let out := (s.databases ctx.db).randomKey ctx.now s.draws
  (out.1.result,{ s.put ctx.db out.1 with draws := out.2 })

def random {A : Type} (f : Draws → A×Draws) : Cmd A := fun _ s =>
  ((f s.draws).1,{ s with draws := (f s.draws).2 })

/-- Actual `notifyKeyspaceEvent` for a key of the selected database. -/
def notify (eventClass : UInt32) (name : String) (key : Bytes) : Cmd Unit := fun ctx s =>
  ((),{ s with events := s.events++[⟨eventClass,ascii name,key,ctx.db⟩] })

def notifyKeyMiss (key : Bytes) : Cmd Unit := notify Notify.kKeyMiss "keymiss" key

def markDirty (n : ℕ) : Cmd Unit := fun _ s => ((),{ s with dirty := s.dirty+n })

def countHit : Cmd Unit := fun _ s => ((),{ s with hits := s.hits+1 })

def countMiss : Cmd Unit := fun _ s => ((),{ s with misses := s.misses+1 })

end Cmd

def arg (argv : List Bytes) (i : ℕ) : Bytes := argv.getD i []

inductive Lookup (A : Type) where
  | missing
  | wrongType
  | found (a : A)

def Lookup.of {A : Type} (typed : Value → Option A) : Option Value → Lookup A
  | none => .missing
  | some v =>
    match typed v with
    | none => .wrongType
    | some a => .found a

open Cmd

section Typed

variable {A : Type}

/-- The type is given by the accessor. -/
def lookupTyped (key : Bytes) (typed : Value → Option A) : Cmd (Lookup A) := do
  let value ← lookupWrite key
  pure (.of typed value)

def missIfNone (key : Bytes) : Option Value → Cmd Unit
  | none => notifyKeyMiss key
  | some _ => pure ()

def lookupTypedRead (key : Bytes) (typed : Value → Option A) : Cmd (Lookup A) := do
  let value ← lookupRead key
  missIfNone key value
  pure (.of typed value)

def createIfMissing (key : Bytes) (typed : Value → Option A) (fresh : Value) :
    Lookup A → Cmd (Lookup A)
  | .missing => do
    setKey key fresh
    let value ← lookupWrite key
    pure (.of typed value)
  | found => pure found

/-- With the value that a missing key gets. -/
def lookupOrCreate (key : Bytes) (typed : Value → Option A) (fresh : Value) : Cmd (Lookup A) := do
  let existing ← lookupTyped key typed
  createIfMissing key typed fresh existing

end Typed

def deleteIfEmpty (key : Bytes) (data : Data) : Cmd Unit :=
  if (Value.of data).type=.string then pure ()
  else if (Value.of data).elementCount=0 then do
    let _ ← eraseKey key
    notify Notify.kGeneric "del" key
  else pure ()

end Mnemos

/-! ## Slots -/

open List

namespace Mnemos

structure Slot where
  value : Option Data
  deadline : Option ℤ

namespace Slot

def empty : Slot := ⟨none,none⟩

def Due (x : Slot) (now : ℤ) : Prop := ∃ t∈x.deadline,t ≤ now

instance (x : Slot) (now : ℤ) : Decidable (x.Due now) :=
  inferInstanceAs (Decidable (∃ t∈x.deadline,t ≤ now))

instance : Nonempty Slot := ⟨empty⟩

def live (x : Slot) (now : ℤ) : Option Data := if x.Due now then none else x.value

theorem not_due_empty {now : ℤ} : ¬empty.Due now := by
  rintro ⟨t,ht,-⟩
  cases ht

end Slot

def Keyspace.slots (s : Keyspace) : ℕ×Bytes → Slot := fun p =>
  ⟨((s.databases p.1).dict.lookup p.2).map Value.data,(s.databases p.1).expires.lookup p.2⟩

def purged (slots : ℕ×Bytes → Slot) (p : ℕ×Bytes) (now : ℤ) : ℕ×Bytes → Slot :=
  if (slots p).Due now then Function.update slots p .empty else slots

def purgeEvents (slots : ℕ×Bytes → Slot) (p : ℕ×Bytes) (now : ℤ) : List Event :=
  if (slots p).Due now then [Callback.event p.1 (.expired p.2)] else []

def newEvents (slots : ℕ×Bytes → Slot) (p : ℕ×Bytes) : List Event :=
  if (slots p).value.isNone then [Callback.event p.1 (.added p.2)] else []

def Unchanged (now : ℤ) (slots slots' : ℕ×Bytes → Slot) : Prop :=
  ∀ p,slots' p=slots p ∨ (slots p).Due now ∧ slots' p=.empty

section Purged

variable {slots : ℕ×Bytes → Slot} {p : ℕ×Bytes} {now : ℤ}

theorem purged_value : (purged slots p now p).value=(slots p).live now := by
  unfold purged Slot.live
  split
  · rw [Function.update_self]
    rfl
  · rfl

theorem purged_of_ne {q : ℕ×Bytes} (h : q≠p) : purged slots p now q=slots q := by
  unfold purged
  split
  · rw [Function.update_of_ne h]
  · rfl

theorem unchanged_purged : Unchanged now slots (purged slots p now) := by
  intro q
  unfold purged
  split
  · rename_i h
    by_cases hq : q=p
    · subst hq
      exact .inr ⟨h,Function.update_self ..⟩
    · exact .inl (Function.update_of_ne hq ..)
  · exact .inl rfl

theorem purged_of_not_due (h : ¬(slots p).Due now) : purged slots p now=slots := if_neg h

end Purged

namespace Keyspace

variable (s : Keyspace) (i : ℕ) (key : Bytes) (now : ℤ)

theorem due_slots : (s.slots (i,key)).Due now ↔ (s.databases i).Due key now := by
  rfl

theorem live_slots : (s.slots (i,key)).live now=((s.databases i).live key now).map Value.data := by
  unfold Slot.live Database.live
  simp only [due_slots]
  split <;> rfl

theorem slots_put {A : Type} (out : Database.Outcome A) {f : ℕ×Bytes → Slot}
    (hother : ∀ p : ℕ×Bytes,p.1≠i → f p=s.slots p)
    (hown : ∀ k,f (i,k)=⟨(out.db.dict.lookup k).map Value.data,out.db.expires.lookup k⟩) :
    (s.put i out).slots=f := by
  funext p
  obtain ⟨j,k⟩ := p
  by_cases hj : j=i
  · subst hj
    rw [hown k]
    simp only [slots,put,Function.update_self]
  · rw [hother (j,k) hj]
    simp only [slots,put,Function.update_of_ne hj]

theorem slots_put_update {A : Type} (out : Database.Outcome A) {x : Slot}
    (hkey : x=⟨(out.db.dict.lookup key).map Value.data,out.db.expires.lookup key⟩)
    (hdict : ∀ k,k≠key → out.db.dict.lookup k=(s.databases i).dict.lookup k)
    (hexpires : ∀ k,k≠key → out.db.expires.lookup k=(s.databases i).expires.lookup k) :
    (s.put i out).slots=Function.update s.slots (i,key) x := by
  refine slots_put s i out ?_ ?_
  · rintro ⟨j,k⟩ hj
    refine Function.update_of_ne (fun h => hj ?_) _ _
    exact congrArg Prod.fst h
  · intro k
    by_cases hk : k=key
    · subst hk
      rw [Function.update_self,hkey]
    · have hne : (i,k)≠(i,key) := fun h => hk (congrArg Prod.snd h)
      rw [Function.update_of_ne hne,hdict k hk,hexpires k hk]
      rfl

end Keyspace

structure Effect (s s' : Keyspace) (slots : ℕ×Bytes → Slot) (events : List Event) : Prop where
  slots_eq : s'.slots=slots
  events_eq : s'.events=s.events++events
  count_eq : s'.count=s.count

theorem Effect.none {s s' : Keyspace} (hslots : s'.slots=s.slots) (hevents : s'.events=s.events)
    (hcount : s'.count=s.count) : Effect s s' s.slots [] :=
  ⟨hslots,by rw [hevents,append_nil],hcount⟩

theorem Effect.put {A : Type} (s : Keyspace) (i : ℕ) (key : Bytes) (out : Database.Outcome A)
    {x : Slot} {events : List Event}
    (hslot : ⟨(out.db.dict.lookup key).map Value.data,out.db.expires.lookup key⟩=x)
    (hevents : out.calls.map (Callback.event i)=events)
    (hdict : ∀ k,k≠key → out.db.dict.lookup k=(s.databases i).dict.lookup k)
    (hexpires : ∀ k,k≠key → out.db.expires.lookup k=(s.databases i).expires.lookup k) :
    Effect s (s.put i out) (Function.update s.slots (i,key) x) events :=
  ⟨Keyspace.slots_put_update s i key out hslot.symm hdict hexpires,by rw [←hevents]; rfl,rfl⟩

theorem Effect.put_same {A : Type} (s : Keyspace) (i : ℕ) (out : Database.Outcome A)
    (hdict : ∀ k,(out.db.dict.lookup k).map Value.data=
      ((s.databases i).dict.lookup k).map Value.data)
    (hexpires : ∀ k,out.db.expires.lookup k=(s.databases i).expires.lookup k) :
    Effect s (s.put i out) s.slots (out.calls.map (Callback.event i)) := by
  refine ⟨Keyspace.slots_put s i out (fun _ _ => rfl) fun k => ?_,rfl,rfl⟩
  rw [hdict,hexpires]
  rfl

namespace Keyspace

variable (s : Keyspace) (i : ℕ)

theorem put_put {A B : Type} (out : Database.Outcome A) (out' : Database.Outcome B) :
    (s.put i out).put i out'=s.put i ⟨out'.result,out'.db,out.calls++out'.calls⟩ := by
  simp only [put,Function.update_idem,map_append,append_assoc]

theorem put_own {A : Type} (a : A) : s.put i ⟨a,s.databases i,[]⟩=s := by
  simp only [put,Function.update_eq_self,map_nil,append_nil]

theorem expireIfNeeded_effect (key : Bytes) (now : ℤ) :
    Effect s (s.put i ((s.databases i).expireIfNeeded key now)) (purged s.slots (i,key) now)
      (purgeEvents s.slots (i,key) now) := by
  have hdue := due_slots s i key now
  by_cases h : (s.databases i).Due key now
  · rw [purged,purgeEvents,if_pos (hdue.mpr h),if_pos (hdue.mpr h)]
    refine Effect.put s i key ((s.databases i).expireIfNeeded key now) ?_ ?_ ?_ ?_
    · rw [Database.expireIfNeeded_dict,Database.expireIfNeeded_expires,if_pos ⟨rfl,h⟩,
        if_pos ⟨rfl,h⟩]
      rfl
    · rw [Database.expireIfNeeded_calls,if_pos h]
      rfl
    · exact fun k hk => by rw [Database.expireIfNeeded_dict,if_neg fun h => hk h.1]
    · exact fun k hk => by rw [Database.expireIfNeeded_expires,if_neg fun h => hk h.1]
  · have heffect := Effect.put_same s i ((s.databases i).expireIfNeeded key now)
      (fun k => by rw [Database.expireIfNeeded_dict,if_neg fun hk => h hk.2])
      (fun k => by rw [Database.expireIfNeeded_expires,if_neg fun hk => h hk.2])
    rw [Database.expireIfNeeded_calls,if_neg h] at heffect
    rw [purged,purgeEvents,if_neg (mt hdue.mp h),if_neg (mt hdue.mp h)]
    exact heffect

end Keyspace

namespace Cmd

theorem bind_apply {A B : Type} (c : Cmd A) (f : A → Cmd B) (ctx : Context) (s : Keyspace) :
    (c >>= f) ctx s=f (c ctx s).1 ctx (c ctx s).2 := rfl

theorem nowMs_bind {B : Type} (f : ℤ → Cmd B) (ctx : Context) (s : Keyspace) :
    (nowMs >>= f) ctx s=f ctx.now ctx s := rfl

theorem pure_apply {A : Type} (a : A) (ctx : Context) (s : Keyspace) :
    (pure a : Cmd A) ctx s=(a,s) := rfl

variable (key : Bytes) (ctx : Context) (s : Keyspace)

theorem lookupWrite_fst : (lookupWrite key ctx s).1=
    ((s.slots (ctx.db,key)).live ctx.now).map (Value.mk · ctx.now) := by
  rw [Keyspace.live_slots,Option.map_map]
  exact Database.lookupRead_result _ _ _

theorem lookupWrite_effect : Effect s (lookupWrite key ctx s).2
    (purged s.slots (ctx.db,key) ctx.now) (purgeEvents s.slots (ctx.db,key) ctx.now) := by
  have hdue := Keyspace.due_slots s ctx.db key ctx.now
  by_cases h : (s.databases ctx.db).Due key ctx.now
  · rw [purged,purgeEvents,if_pos (hdue.mpr h),if_pos (hdue.mpr h)]
    refine Effect.put s ctx.db key ((s.databases ctx.db).lookupRead key ctx.now) ?_ ?_ ?_ ?_
    · rw [Database.lookupRead_dict,if_pos rfl,Database.lookupRead_expires,if_pos ⟨rfl,h⟩,
        Database.live,if_pos h]
      rfl
    · rw [Database.lookupRead_calls,if_pos h]
      rfl
    · exact fun k hk => by rw [Database.lookupRead_dict,if_neg hk]
    · exact fun k hk => by rw [Database.lookupRead_expires,if_neg fun h => hk h.1]
  · have heffect := Effect.put_same s ctx.db ((s.databases ctx.db).lookupRead key ctx.now)
      (fun k => by
        rw [Database.lookupRead_dict,Database.live,if_neg h]
        split
        · subst k
          rw [Option.map_map]
          rfl
        · rfl)
      (fun k => by rw [Database.lookupRead_expires,if_neg fun hk => h hk.2])
    rw [Database.lookupRead_calls,if_neg h] at heffect
    rw [purged,purgeEvents,if_neg (mt hdue.mp h),if_neg (mt hdue.mp h)]
    exact heffect

theorem existsKey_effect : Effect s (existsKey key ctx s).2
    (purged s.slots (ctx.db,key) ctx.now) (purgeEvents s.slots (ctx.db,key) ctx.now) := by
  have h : (existsKey key ctx s).2=(lookupWrite key ctx s).2 := by
    unfold existsKey lookupWrite onDb
    dsimp only
    rw [Database.exists_eq]
    rfl
  rw [h]
  exact lookupWrite_effect key ctx s

theorem added_events (value : Value) :
    (if ((s.databases ctx.db).dict.insert key value).2 then [Callback.added key] else []).map
      (Callback.event ctx.db)=newEvents s.slots (ctx.db,key) := by
  rw [Dict.insert_snd,newEvents,Keyspace.slots,Option.isNone_map]
  split <;> rfl

theorem setKey_effect (value : Value) : Effect s (setKey key value ctx s).2
    (Function.update s.slots (ctx.db,key) ⟨some value.data,none⟩)
    (newEvents s.slots (ctx.db,key)) := by
  refine Effect.put s ctx.db key ((s.databases ctx.db).setKey key value) ?_
    (added_events key ctx s value) ?_ ?_
  · rw [Database.setKey,Dict.lookup_insert,if_pos rfl,Dict.lookup_erase,if_pos rfl]
    rfl
  · exact fun k hk => by rw [Database.setKey,Dict.lookup_insert,if_neg hk]
  · exact fun k hk => by rw [Database.setKey,Dict.lookup_erase,if_neg hk]

theorem overwriteValue_effect (value : Value) : Effect s (overwriteValue key value ctx s).2
    (Function.update s.slots (ctx.db,key) ⟨some value.data,(s.slots (ctx.db,key)).deadline⟩)
    (newEvents s.slots (ctx.db,key)) := by
  refine Effect.put s ctx.db key ((s.databases ctx.db).overwriteValue key value) ?_
    (added_events key ctx s value) ?_ fun _ _ => rfl
  · rw [Database.overwriteValue,Dict.lookup_insert,if_pos rfl]
    rfl
  · exact fun k hk => by rw [Database.overwriteValue,Dict.lookup_insert,if_neg hk]

theorem eraseKey_effect : Effect s (eraseKey key ctx s).2
    (Function.update s.slots (ctx.db,key) .empty) [] := by
  refine Effect.put (A := Bool) s ctx.db key
    ⟨((s.databases ctx.db).erase key).1,((s.databases ctx.db).erase key).2,[]⟩ ?_ rfl ?_ ?_
  · simp only [Database.erase,Dict.lookup_erase,if_true,Option.map_none]
    rfl
  · exact fun k hk => by simp only [Database.erase,Dict.lookup_erase,if_neg hk]
  · exact fun k hk => by simp only [Database.erase,Dict.lookup_erase,if_neg hk]

theorem setExpireAt_effect (at_ : ℤ) : Effect s (setExpireAt key at_ ctx s).2
    (Function.update s.slots (ctx.db,key) ⟨(s.slots (ctx.db,key)).value,some at_⟩) [] := by
  refine Effect.put (A := Unit) s ctx.db key ⟨(),(s.databases ctx.db).setExpireAt key at_,[]⟩
    ?_ rfl (fun _ _ => rfl) ?_
  · simp only [Database.setExpireAt,Dict.lookup_insert,if_true]
    rfl
  · exact fun k hk => by simp only [Database.setExpireAt,Dict.lookup_insert,if_neg hk]

theorem expireAtMs_effect : Effect s (expireAtMs key ctx s).2 s.slots [] :=
  Effect.put_same (A := ℤ) s ctx.db
    ⟨((s.databases ctx.db).expireAtMs key).1,((s.databases ctx.db).expireAtMs key).2,[]⟩
    (fun _ => rfl) (fun k => Database.expireAtMs_expires _ key k)

theorem store_effect (data : Data) : Effect s (store key data ctx s).2
    (Function.update s.slots (ctx.db,key)
      ⟨(s.slots (ctx.db,key)).value.map fun _ => data,(s.slots (ctx.db,key)).deadline⟩) [] := by
  refine Effect.put (A := Unit) s ctx.db key
    ⟨(),(s.databases ctx.db).update key ⟨data,ctx.now⟩,[]⟩ ?_ rfl ?_ fun _ _ => rfl
  · have hvalue : ((s.databases ctx.db).update key ⟨data,ctx.now⟩).dict.lookup key=
        ((s.databases ctx.db).dict.lookup key).map fun _ => ⟨data,ctx.now⟩ := by
      rw [Database.update,Dict.lookup_assign]
      cases (s.databases ctx.db).dict.lookup key <;> simp
    simp only [hvalue,Option.map_map,Keyspace.slots]
    rfl
  · exact fun k hk => by rw [Database.update,Dict.lookup_assign,if_neg fun h => hk h.1]

theorem notify_effect (eventClass : UInt32) (name : String) :
    Effect s (notify eventClass name key ctx s).2 s.slots [⟨eventClass,ascii name,key,ctx.db⟩] :=
  ⟨rfl,rfl,rfl⟩

theorem markDirty_effect (n : ℕ) : Effect s (markDirty n ctx s).2 s.slots [] :=
  .none rfl rfl rfl

end Cmd

def Commands.blank : Keyspace := ⟨16,fun _ => .init,Stream'.const 0,0,0,0,[]⟩

end Mnemos
