import Mnemos.KeyCommands

/-!
# The server

Connections, the registries of subscribers and of watched keys, and what an
event does to them.
-/

namespace Mnemos

open List

section Sets

variable {A : Type} [LT A] [DecidableLT A] [DecidableEq A]

def setInsert (a : A) : List A → List A
  | [] => [a]
  | b::rest => if a < b then a::b::rest else if a=b then b::rest else b::setInsert a rest

@[simp] theorem mem_setInsert {a b : A} {xs : List A} : b∈setInsert a xs ↔ b=a ∨ b∈xs := by
  induction xs with
  | nil => simp [setInsert]
  | cons x xs ih =>
    rw [setInsert]
    split
    · simp only [mem_cons]
    · split
      · rename_i heq
        subst heq
        simp only [mem_cons]
        tauto
      · simp only [mem_cons,ih]
        tauto

end Sets

theorem setInsert_pairwise {A : Type} [LT A] [DecidableLT A] [DecidableEq A]
    [IsTrans A (· < ·)] [Std.Trichotomous fun a b : A => a < b] (a : A) {xs : List A}
    (h : xs.Pairwise (· < ·)) : (setInsert a xs).Pairwise (· < ·) := by
  induction xs with
  | nil => simp [setInsert]
  | cons x xs ih =>
    obtain ⟨hx,hxs⟩ := pairwise_cons.mp h
    rw [setInsert]
    split
    · rename_i hlt
      refine pairwise_cons.mpr ⟨fun y hy => ?_,h⟩
      rcases mem_cons.mp hy with rfl|hy
      · exact hlt
      · exact IsTrans.trans _ _ _ hlt (hx y hy)
    · split
      · exact h
      · rename_i hlt hne
        refine pairwise_cons.mpr ⟨fun y hy => ?_,ih hxs⟩
        rcases mem_setInsert.mp hy with rfl|hy
        · by_contra hgt
          exact hne (Std.Trichotomous.trichotomous _ _ hlt hgt)
        · exact hx y hy

structure Registry where
  /-- The descriptors under a name; none when the map has no such name. -/
  under : Bytes → List ℕ
  names : List Bytes

namespace Registry

def empty : Registry := ⟨fun _ => [],[]⟩

def addTo (r : Registry) (name : Bytes) (fd : ℕ) : Registry :=
  ⟨Function.update r.under name (setInsert fd (r.under name)),setInsert name r.names⟩

def removeFrom (r : Registry) (name : Bytes) (fd : ℕ) : Registry :=
  let left := (r.under name).erase fd
  ⟨Function.update r.under name left,if left=[] then r.names.erase name else r.names⟩

@[simp] theorem mem_under_addTo {r : Registry} {name other : Bytes} {fd x : ℕ} :
    x∈(r.addTo name fd).under other ↔ (other=name ∧ x=fd) ∨ x∈r.under other := by
  by_cases h : other=name
  · subst h
    simp [addTo]
  · simp [addTo,h]

theorem mem_under_removeFrom {r : Registry} {name other : Bytes} {fd x : ℕ} (hne : x≠fd) :
    x∈(r.removeFrom name fd).under other ↔ x∈r.under other := by
  by_cases h : other=name
  · subst h
    simp [removeFrom,mem_erase_of_ne hne]
  · simp [removeFrom,h]

/-- The map registers exactly those that hold a name, and has no name without a descriptor. -/
structure Agrees (r : Registry) (Holds : ℕ → Bytes → Prop) : Prop where
  sorted : ∀ name,(r.under name).Pairwise (· < ·)
  ordered : r.names.Pairwise (· < ·)
  named : ∀ name,name∈r.names ↔ r.under name≠[]
  mem : ∀ {fd name},fd∈r.under name ↔ Holds fd name

section Agrees

variable {r : Registry} {Holds Holds' : ℕ → Bytes → Prop}

theorem agrees_empty (h : ∀ fd name,¬Holds fd name) : empty.Agrees Holds where
  sorted _ := .nil
  ordered := .nil
  named _ := ⟨nofun,fun hne => absurd rfl hne⟩
  mem := ⟨nofun,fun hholds => absurd hholds (h _ _)⟩

theorem Agrees.congr (h : r.Agrees Holds) (hsame : ∀ fd name,Holds fd name ↔ Holds' fd name) :
    r.Agrees Holds' :=
  ⟨h.sorted,h.ordered,h.named,h.mem.trans (hsame _ _)⟩

theorem Agrees.names_nodup (h : r.Agrees Holds) : r.names.Nodup := by
  refine h.ordered.imp fun {a b} hlt heq => ?_
  subst heq
  exact List.lt_irrefl a hlt

theorem Agrees.nodup (h : r.Agrees Holds) (name : Bytes) : (r.under name).Nodup :=
  (h.sorted name).imp fun hlt => Nat.ne_of_lt hlt

theorem Agrees.addTo (h : r.Agrees Holds) (name : Bytes) (fd : ℕ) :
    (r.addTo name fd).Agrees fun x n => (x=fd ∧ n=name) ∨ Holds x n where
  sorted other := by
    by_cases hother : other=name
    · subst hother
      simpa [Registry.addTo] using setInsert_pairwise fd (h.sorted other)
    · simpa [Registry.addTo,hother] using h.sorted other
  ordered := setInsert_pairwise name h.ordered
  named other := by
    have hnames : other∈(r.addTo name fd).names ↔ other=name ∨ other∈r.names := mem_setInsert
    rw [hnames,h.named other]
    by_cases hother : other=name
    · subst hother
      have hfd : fd∈(r.addTo other fd).under other := mem_under_addTo.mpr (.inl ⟨rfl,rfl⟩)
      exact ⟨fun _ => ne_nil_of_mem hfd,fun _ => .inl rfl⟩
    · simp [Registry.addTo,hother]
  mem {x n} := by
    rw [mem_under_addTo,h.mem,and_comm]

theorem Agrees.removeFrom (h : r.Agrees Holds) (name : Bytes) (fd : ℕ) :
    (r.removeFrom name fd).Agrees fun x n => Holds x n ∧ ¬(x=fd ∧ n=name) where
  sorted other := by
    by_cases hother : other=name
    · subst hother
      simpa [Registry.removeFrom] using (h.sorted other).sublist erase_sublist
    · simpa [Registry.removeFrom,hother] using h.sorted other
  ordered := by
    unfold Registry.removeFrom
    dsimp only
    split
    · exact h.ordered.sublist erase_sublist
    · exact h.ordered
  named other := by
    have hdistinct : r.names.Nodup := h.names_nodup
    unfold Registry.removeFrom
    dsimp only
    by_cases hother : other=name
    · subst hother
      rw [Function.update_self]
      split
      · rename_i hnil
        rw [hnil]
        exact ⟨fun hmem => absurd hmem hdistinct.not_mem_erase,fun hne => absurd rfl hne⟩
      · rename_i hleft
        refine ⟨fun _ => hleft,fun _ => (h.named other).mpr fun hnil => hleft ?_⟩
        rw [hnil]
        rfl
    · rw [Function.update_of_ne hother,←h.named other]
      split
      · exact mem_erase_of_ne hother
      · rfl
  mem {x n} := by
    by_cases hx : x=fd
    · subst hx
      by_cases hn : n=name
      · subst hn
        simp [Registry.removeFrom,(h.nodup n).mem_erase_iff]
      · simp [Registry.removeFrom,hn,h.mem]
    · rw [mem_under_removeFrom hx,h.mem]
      simp [hx]

theorem Agrees.removeAll (fd : ℕ) (names : List Bytes) : ∀ {r : Registry}
    {Holds : ℕ → Bytes → Prop},r.Agrees Holds →
    (names.foldl (·.removeFrom · fd) r).Agrees fun x n => Holds x n ∧ ¬(x=fd ∧ n∈names) := by
  induction names with
  | nil => exact fun h => h.congr fun x n => by simp
  | cons name rest ih =>
    intro r Holds h
    refine (ih (h.removeFrom name fd)).congr fun x n => ?_
    rw [mem_cons]
    tauto

end Agrees

end Registry

/-! ## The server -/

structure OsError where
  text : Bytes
  single : lf∉text

structure WatchedKey where
  db : ℕ
  key : Bytes
  /-- The key was past its deadline when `WATCH` ran. -/
  expired : Bool
deriving DecidableEq

structure Client where
  id : ℕ
  addr : Bytes
  protover : ℕ := 2
  dbIndex : ℕ := 0
  name : Bytes := []
  authenticated : Bool := false
  closeAfterReply : Bool := false
  output : Bytes := []
  inMulti : Bool := false
  multiError : Bool := false
  dirtyCas : Bool := false
  multiQueue : List (List Bytes) := []
  watchedKeys : List WatchedKey := []
  channels : List Bytes := []
  patterns : List Bytes := []
  shardChannels : List Bytes := []
  createdAt : ℤ := 0
  lastInteraction : ℤ := 0
  lastCommand : Bytes := []
deriving DecidableEq

namespace Client

def subscriptionCount (c : Client) : ℕ := c.channels.length+c.patterns.length

def inSubscriberMode (c : Client) : Bool := 0 < c.subscriptionCount+c.shardChannels.length

def resetMultiState (c : Client) : Client :=
  { c with inMulti := false, multiError := false, dirtyCas := false, multiQueue := [] }

def sawExpired (c : Client) (db : ℕ) (key : Bytes) : Bool :=
  c.watchedKeys.any fun w => w.db==db && w.key==key && w.expired

def signal (c : Client) (db : ℕ) (key : Bytes) (fromExpiry : Bool) : Client :=
  if fromExpiry && c.sawExpired db key then
    { c with watchedKeys := c.watchedKeys.map fun w =>
        if w.db=db ∧ w.key=key then { w with expired := false } else w }
  else { c with dirtyCas := true }

end Client

structure Config where
  bindAddress : Bytes
  port : ℤ
  databases : ℤ
  maxClients : ℕ
  /-- Actual `requirepass`; empty for none. -/
  requirepass : Bytes
  dir : Bytes
  dbfilename : Bytes
  notifyFlags : UInt32

/-- Hits and misses are kept with the databases. -/
structure Stats where
  connectionsReceived : ℕ := 0
  commandsProcessed : ℕ := 0
  expiredKeys : ℕ := 0
  rejectedConnections : ℕ := 0
  totalNetInput : ℕ := 0
  totalNetOutput : ℕ := 0

structure Child where
  path : Bytes
  file : Option Bytes
  renamed : Bool
  exited : Option Bool

structure Outside where
  time : ℤ
  micros : ℕ
  createError : Option OsError
  schedule : List Rdb.WriteResult
  renamed : Bool
  forkError : Option OsError
  /-- A saving child's rename happens before the file is opened for reading. -/
  interposed : Bool
  openError : Option OsError
  readFailed : Bool
  loadTimes : Stream' ℤ

structure Server where
  config : Config
  keyspace : Keyspace
  clients : ℕ → Option Client
  /-- Descriptors in the order in which the table of connections is walked. -/
  order : List ℕ
  nextClientId : ℕ
  channels : Registry
  shardChannels : Registry
  patterns : Registry
  watched : ℕ → Registry
  selfPending : Bytes
  executing : Option ℕ
  stats : Stats
  startTime : ℤ
  runId : Bytes
  pid : ℕ
  lastSaveTime : ℤ
  rdbSaves : ℕ
  child : Option Child
  dirtyAtFork : ℕ
  lastBgsaveOk : Bool
  files : Bytes → Option Bytes
  world : Stream' Outside
  running : Bool
  alive : Bool

namespace Server

def modifyClient (s : Server) (fd : ℕ) (f : Client → Client) : Server :=
  { s with clients := Function.update s.clients fd ((s.clients fd).map f) }

/-- Every descriptor under the key is visited once. -/
def signalModifiedKey (s : Server) (db : ℕ) (key : Bytes) (fromExpiry : Bool) : Server :=
  { s with clients := fun fd =>
      if fd∈(s.watched db).under key then (s.clients fd).map (·.signal db key fromExpiry)
      else s.clients fd }

def queueWrite (s : Server) (fd : ℕ) (bytes : Bytes) : Server :=
  if s.executing=some fd then { s with selfPending := s.selfPending++bytes }
  else s.modifyClient fd fun c => { c with output := c.output++bytes }

section Text

variable [FloatText]

def messageFrame (protover : ℕ) (kind : String) (pattern : Option Bytes) (channel payload : Bytes) :
    Bytes :=
  let named := ascii kind::(pattern.toList++[channel,payload])
  (Token.pushHeader named.length::named.map Token.bulk).flatMap (Token.encode protover)

def deliverMessage (s : Server) (fd : ℕ) (kind : String) (pattern : Option Bytes)
    (channel payload : Bytes) : Server :=
  match s.clients fd with
  | none => s
  | some c => s.queueWrite fd (messageFrame c.protover kind pattern channel payload)

def patternTargets (s : Server) (channel : Bytes) : List (Bytes×ℕ) :=
  (s.patterns.names.filter (globMatch · channel false)).flatMap fun pattern =>
    (s.patterns.under pattern).map fun fd => (pattern,fd)

def publishMessage (s : Server) (channel payload : Bytes) : ℕ×Server :=
  let direct := s.channels.under channel
  let matched := s.patternTargets channel
  let s := direct.foldl (fun s fd => s.deliverMessage fd "message" none channel payload) s
  let s := matched.foldl
    (fun s t => s.deliverMessage t.2 "pmessage" (some t.1) channel payload) s
  (direct.length+matched.length,s)

def publishShardMessage (s : Server) (channel payload : Bytes) : ℕ×Server :=
  let direct := s.shardChannels.under channel
  (direct.length,
    direct.foldl (fun s fd => s.deliverMessage fd "smessage" none channel payload) s)

def eventMessages (enabled : UInt32) (ev : Event) : List (Bytes×Bytes) :=
  let db := natDecimal ev.db
  if enabled &&& ev.eventClass=0 then []
  else
    (if enabled &&& Notify.kKeyspace≠0 then
      [(ascii "__keyspace@"++db++ascii "__:"++ev.key,ev.name)] else [])++
    (if enabled &&& Notify.kKeyevent≠0 then
      [(ascii "__keyevent@"++db++ascii "__:"++ev.name,ev.key)] else [])

def notifyKeyspaceEvent (s : Server) (ev : Event) : Server :=
  let s :=
    if ev.eventClass≠Notify.kKeyMiss then
      s.signalModifiedKey ev.db ev.key (ev.name==ascii "expired")
    else s
  (eventMessages s.config.notifyFlags ev).foldl (fun s m => (s.publishMessage m.1 m.2).2) s

def raise (s : Server) (events : List Event) : Server := events.foldl notifyKeyspaceEvent s

end Text

def unwatchAllKeys (s : Server) (fd : ℕ) : Server :=
  match s.clients fd with
  | none => s
  | some c =>
    let watched := c.watchedKeys.foldl (fun watched w =>
      Function.update watched w.db ((watched w.db).removeFrom w.key fd)) s.watched
    { s with watched := watched }.modifyClient fd fun c => { c with watchedKeys := [] }

def discardTransaction (s : Server) (fd : ℕ) : Server :=
  (s.modifyClient fd Client.resetMultiState).unwatchAllKeys fd

def clearSubscriptions (s : Server) (fd : ℕ) : Server :=
  match s.clients fd with
  | none => s
  | some c =>
    { s with
      channels := c.channels.foldl (·.removeFrom · fd) s.channels
      patterns := c.patterns.foldl (·.removeFrom · fd) s.patterns
      shardChannels := c.shardChannels.foldl (·.removeFrom · fd) s.shardChannels }.modifyClient fd
        fun c => { c with channels := [], patterns := [], shardChannels := [] }

/-- Outside the connection's own command. -/
def closeClient (s : Server) (fd : ℕ) : Server :=
  match s.clients fd with
  | none => s
  | some _ =>
    let s := (s.clearSubscriptions fd).unwatchAllKeys fd
    { s with clients := Function.update s.clients fd none, order := s.order.erase fd }

def presentWatched (s : Server) (db : ℕ) : List Bytes :=
  (s.watched db).names.filter fun key => ((s.keyspace.databases db).dict.peek key).isSome

def touchWatchedKeysOnFlush (s : Server) (db : ℕ) : Server :=
  (s.presentWatched db).foldl (fun s key => s.signalModifiedKey db key false) s

end Server

structure Frame where
  now : ℤ
  fd : ℕ
  protover : ℕ

def Act (A : Type) : Type := Frame → Server → A×Server

instance : Monad Act where
  pure a := fun _ s => (a,s)
  bind c f := fun fr s => f (c fr s).1 fr (c fr s).2

namespace Act

def server : Act Server := fun _ s => (s,s)

def modify (f : Server → Server) : Act Unit := fun _ s => ((),f s)

def frame : Act Frame := fun fr s => (fr,s)

def client : Act Client := fun fr s => ((s.clients fr.fd).getD { id := 0, addr := [] },s)

def modifyClient (f : Client → Client) : Act Unit := fun fr s => ((),s.modifyClient fr.fd f)

def outside : Act Outside := fun _ s => (s.world.head,{ s with world := s.world.tail })

variable [FloatText]

def onKeyspace {A : Type} (now : ℤ) (db protover : ℕ) (c : Cmd A) (s : Server) : A×Server :=
  let out := c ⟨now,db,protover⟩ { s.keyspace with events := [] }
  (out.1,{ s with keyspace := { out.2 with events := [] } }.raise out.2.events)

def data {A : Type} (c : Cmd A) : Act A := fun fr s =>
  onKeyspace fr.now (((s.clients fr.fd).map (·.dbIndex)).getD 0) fr.protover c s

end Act

end Mnemos

/-! ## Connection, transaction and subscription commands -/

namespace Mnemos.Commands

open Act

def ping (argv : List Bytes) : Act Response := do
  let c ← client
  if 2 < argv.length then pure (.wrongArgs "ping")
  else if c.protover=2 ∧ c.inSubscriberMode then
    pure (.tokens [.pushHeader 2,.bulk (ascii "pong"),
      .bulk (if argv.length=2 then arg argv 1 else [])])
  else if argv.length=2 then pure (.bulk (arg argv 1))
  else pure (.token (.simpleString (ascii "PONG")))

def echo (argv : List Bytes) : Act Response := pure (.bulk (arg argv 1))

def select (argv : List Bytes) : Act Response := do
  let s ← server
  match stringToInt64 (arg argv 1) with
  | none => pure (.err "ERR value is not an integer or out of range")
  | some index =>
    if index < 0 ∨ (s.keyspace.count : ℤ) ≤ index then pure (.err "ERR DB index is out of range")
    else
      modifyClient fun c => { c with dbIndex := index.toNat }
      pure .ok

def wrongPass : Response := .err "WRONGPASS invalid username-password pair or user is disabled."

/-- The option loop of `hello`; the first number counts the words already used. What was accepted
before a refusal stays. -/
def helloLoop (requirepass : Bytes) : ℕ → List Bytes → Client → Option Response×Client
  | _,[],c => (none,c)
  | used+1,_::rest,c => helloLoop requirepass used rest c
  | 0,word::rest,c =>
    if isWord word "AUTH" ∧ 2 ≤ rest.length then
      if requirepass=[] ∨ rest.getD 1 []=requirepass then
        helloLoop requirepass 2 rest { c with authenticated := true }
      else (some wrongPass,c)
    else if isWord word "SETNAME" ∧ 1 ≤ rest.length then
      helloLoop requirepass 1 rest { c with name := rest.getD 0 [] }
    else (some (.err "ERR Protocol error: unsupported HELLO option"),c)

def helloReply (protover id : ℕ) : Response :=
  .tokensAt protover [.mapHeader 7,
    .bulk (ascii "server"),.bulk (ascii "mnemos"),
    .bulk (ascii "version"),.bulk (ascii "0.1.0"),
    .bulk (ascii "proto"),.integer protover,
    .bulk (ascii "id"),.integer id,
    .bulk (ascii "mode"),.bulk (ascii "standalone"),
    .bulk (ascii "role"),.bulk (ascii "master"),
    .bulk (ascii "modules"),.arrayHeader 0]

def helloFinish (requirepass : Bytes) (requested : ℕ) (c : Client) : Act Response :=
  if requirepass≠[] ∧ c.authenticated=false then
    pure (.err "NOAUTH HELLO must be called with the client already authenticated, otherwise the HELLO <proto> AUTH <user> <pass> option can be used to authenticate the client and select the RESP protocol version at the same time")
  else do
    modifyClient fun c => { c with protover := requested }
    pure (helloReply requested c.id)

def helloVersion (argv : List Bytes) (current : ℕ) : Option ℕ :=
  if argv.length < 2 then some current
  else
    match stringToInt64 (arg argv 1) with
    | some 2 => some 2
    | some 3 => some 3
    | _ => none

def hello (argv : List Bytes) : Act Response := do
  let c ← client
  let s ← server
  match helloVersion argv c.protover with
  | none => pure (.err "NOPROTO unsupported protocol version")
  | some requested =>
    let r := helloLoop s.config.requirepass 0 (argv.drop 2) c
    modifyClient fun c => { c with authenticated := r.2.authenticated, name := r.2.name }
    match r.1 with
    | some refusal => pure refusal
    | none => helloFinish s.config.requirepass requested r.2

def auth (argv : List Bytes) : Act Response := do
  let s ← server
  if 3 < argv.length then pure (.wrongArgs "auth")
  else if s.config.requirepass=[] then
    pure (.err "ERR Client sent AUTH, but no password is set. Did you mean AUTH <username> <password>?")
  else if arg argv (argv.length-1)=s.config.requirepass then
    modifyClient fun c => { c with authenticated := true }
    pure .ok
  else pure wrongPass

def quit (_ : List Bytes) : Act Response := do
  modifyClient fun c => { c with closeAfterReply := true }
  pure .ok

def reset (_ : List Bytes) : Act Response := do
  let fr ← frame
  modify (·.clearSubscriptions fr.fd)
  modify (·.discardTransaction fr.fd)
  let s ← server
  modifyClient fun c =>
    { c with
      dbIndex := 0
      protover := 2
      name := []
      authenticated := decide (s.config.requirepass=[]) }
  pure (.token (.simpleString (ascii "RESET")))

def clientField (label : String) (value : Bytes) : Bytes := ascii label++value

def describeClient (c : Client) (now : ℤ) : Bytes :=
  clientField "id=" (natDecimal c.id)++clientField " addr=" c.addr++clientField " name=" c.name++
    clientField " age=" (intDecimal ((now-c.createdAt).tdiv 1000))++
    clientField " idle=" (intDecimal ((now-c.lastInteraction).tdiv 1000))++
    clientField " db=" (natDecimal c.dbIndex)++clientField " resp=" (natDecimal c.protover)++
    clientField " cmd=" (if c.lastCommand=[] then ascii "NULL" else c.lastCommand)

def clientLines (s : Server) (now : ℤ) : Bytes :=
  s.order.flatMap fun fd => ((s.clients fd).map fun c => describeClient c now++[10]).getD []

def unknownOf (container : String) (word : Bytes) : Response :=
  .error (ascii "ERR Unknown "++ascii container++
    ascii " subcommand or wrong number of arguments for '"++word++ascii "'")

def setClientName (argv : List Bytes) : Act Response :=
  if argv.length≠3 then pure (.wrongArgs "client|setname")
  else if (arg argv 2).any fun b => b=32 || b=10 || b=13 then
    pure (.err "ERR Client names cannot contain spaces, newlines or special characters.")
  else do
    modifyClient fun c => { c with name := arg argv 2 }
    pure .ok

def clientCommand (argv : List Bytes) : Act Response := do
  let fr ← frame
  let c ← client
  let s ← server
  let sub := toUpper (arg argv 1)
  if sub=ascii "ID" then pure (.integer c.id)
  else if sub=ascii "GETNAME" then pure (if c.name=[] then .nullBulk else .bulk c.name)
  else if sub=ascii "SETNAME" then setClientName argv
  else if sub=ascii "SETINFO" then pure .ok
  else if sub=ascii "LIST" then pure (.bulk (clientLines s fr.now))
  else if sub=ascii "INFO" then pure (.bulk (describeClient c fr.now))
  else if sub=ascii "NO-EVICT" ∨ sub=ascii "NO-TOUCH" then pure .ok
  else pure (unknownOf "CLIENT" (arg argv 1))

def multi (_ : List Bytes) : Act Response := do
  let c ← client
  if c.inMulti then pure (.err "ERR MULTI calls can not be nested")
  else
    modifyClient fun c => { c with inMulti := true }
    pure .ok

def discard (_ : List Bytes) : Act Response := do
  let fr ← frame
  let c ← client
  if !c.inMulti then pure (.err "ERR DISCARD without MULTI")
  else
    modify (·.discardTransaction fr.fd)
    pure .ok

/-- Looking at the deadline may move buckets of the table. -/
def watchKey (s : Server) (fd : ℕ) (now : ℤ) (key : Bytes) : Server :=
  match s.clients fd with
  | none => s
  | some c =>
    if c.watchedKeys.any fun w => w.db==c.dbIndex && w.key==key then s
    else
      let r := (s.keyspace.databases c.dbIndex).expireAtMs key
      { s with
        keyspace := { s.keyspace with
          databases := Function.update s.keyspace.databases c.dbIndex r.2 }
        watched := Function.update s.watched c.dbIndex ((s.watched c.dbIndex).addTo key fd)
        }.modifyClient fd fun c =>
          { c with watchedKeys := c.watchedKeys++
              [WatchedKey.mk c.dbIndex key (decide (0 ≤ r.1 ∧ r.1 ≤ now))] }

def watch (argv : List Bytes) : Act Response := do
  let fr ← frame
  let c ← client
  if c.inMulti then pure (.err "ERR WATCH inside MULTI is not allowed")
  else
    modify fun s => (argv.drop 1).foldl (fun s key => watchKey s fr.fd fr.now key) s
    pure .ok

def unwatch (_ : List Bytes) : Act Response := do
  let fr ← frame
  modify (·.unwatchAllKeys fr.fd)
  modifyClient fun c => { c with dirtyCas := false }
  pure .ok

inductive SubKind where
  | channel
  | pattern
  | shard
deriving DecidableEq

def heldBy (kind : SubKind) (c : Client) : List Bytes :=
  match kind with
  | .channel => c.channels
  | .pattern => c.patterns
  | .shard => c.shardChannels

def withHeld (kind : SubKind) (held : List Bytes) (c : Client) : Client :=
  match kind with
  | .channel => { c with channels := held }
  | .pattern => { c with patterns := held }
  | .shard => { c with shardChannels := held }

def reportedCount (kind : SubKind) (c : Client) : ℕ :=
  match kind with
  | .shard => c.shardChannels.length
  | _ => c.subscriptionCount

def confirmKind (kind : SubKind) (subscribing : Bool) : String :=
  match kind with
  | .pattern => if subscribing then "psubscribe" else "punsubscribe"
  | .shard => if subscribing then "ssubscribe" else "sunsubscribe"
  | .channel => if subscribing then "subscribe" else "unsubscribe"

/-- With the change of the registry. -/
def updateRegistry (kind : SubKind) (change : Registry → Registry) (s : Server) : Server :=
  match kind with
  | .channel => { s with channels := change s.channels }
  | .pattern => { s with patterns := change s.patterns }
  | .shard => { s with shardChannels := change s.shardChannels }

def confirm (word : String) (target : Option Bytes) (count : ℕ) : List Token :=
  [.pushHeader 3,.bulk (ascii word),(target.map Token.bulk).getD .nullBulk,.integer count]

def subscribeLoop (kind : SubKind) : List Bytes → Act (List Token)
  | [] => pure []
  | name::rest => do
    let fr ← frame
    let c ← client
    if name∉heldBy kind c then
      modifyClient fun c => withHeld kind (setInsert name (heldBy kind c)) c
      modify (updateRegistry kind (·.addTo name fr.fd))
    let c ← client
    let others ← subscribeLoop kind rest
    pure (confirm (confirmKind kind true) (some name) (reportedCount kind c)++others)

def subscribeTo (kind : SubKind) (argv : List Bytes) : Act Response := do
  let ts ← subscribeLoop kind (argv.drop 1)
  pure (.tokens ts)

def unsubscribeLoop (kind : SubKind) : List Bytes → Act (List Token)
  | [] => pure []
  | name::rest => do
    let fr ← frame
    let c ← client
    if name∈heldBy kind c then
      modifyClient fun c => withHeld kind ((heldBy kind c).erase name) c
      modify (updateRegistry kind (·.removeFrom name fr.fd))
    let c ← client
    let others ← unsubscribeLoop kind rest
    pure (confirm (confirmKind kind false) (some name) (reportedCount kind c)++others)

def unsubscribeFrom (kind : SubKind) (argv : List Bytes) : Act Response := do
  let c ← client
  let targets := if 1 < argv.length then argv.drop 1 else heldBy kind c
  if targets=[] then pure (.tokens (confirm (confirmKind kind false) none (reportedCount kind c)))
  else
    let ts ← unsubscribeLoop kind targets
    pure (.tokens ts)

def subscribe (argv : List Bytes) : Act Response := subscribeTo .channel argv
def psubscribe (argv : List Bytes) : Act Response := subscribeTo .pattern argv
def ssubscribe (argv : List Bytes) : Act Response := subscribeTo .shard argv
def unsubscribe (argv : List Bytes) : Act Response := unsubscribeFrom .channel argv
def punsubscribe (argv : List Bytes) : Act Response := unsubscribeFrom .pattern argv
def sunsubscribe (argv : List Bytes) : Act Response := unsubscribeFrom .shard argv

def publish [FloatText] (argv : List Bytes) : Act Response := fun _ s =>
  let r := s.publishMessage (arg argv 1) (arg argv 2)
  (.integer r.1,r.2)

def spublish [FloatText] (argv : List Bytes) : Act Response := fun _ s =>
  let r := s.publishShardMessage (arg argv 1) (arg argv 2)
  (.integer r.1,r.2)

def listedChannels (r : Registry) (argv : List Bytes) : List Bytes :=
  if argv.length=3 then r.names.filter (globMatch (arg argv 2) · false) else r.names

def listChannels (r : Registry) (argv : List Bytes) : Response :=
  if 3 < argv.length then .subcommandSyntaxError "PUBSUB" (arg argv 1)
  else .tokens (bulkArray (listedChannels r argv))

def numSub (r : Registry) (argv : List Bytes) : Response :=
  .tokens (.arrayHeader ((argv.length-2)*2)::(argv.drop 2).flatMap fun name =>
    [.bulk name,.integer (r.under name).length])

def pubsub (argv : List Bytes) : Act Response := do
  let s ← server
  let sub := toLower (arg argv 1)
  if sub=ascii "channels" then pure (listChannels s.channels argv)
  else if sub=ascii "shardchannels" then pure (listChannels s.shardChannels argv)
  else if sub=ascii "numsub" then pure (numSub s.channels argv)
  else if sub=ascii "shardnumsub" then pure (numSub s.shardChannels argv)
  else if sub=ascii "numpat" then
    if argv.length≠2 then pure (.wrongArgs "pubsub|numpat")
    else pure (.integer s.patterns.names.length)
  else pure (.unknownSubcommand "PUBSUB" (arg argv 1))

end Mnemos.Commands

/-! ## Administrative commands -/

namespace Mnemos

/-! ## Snapshots of the server -/

open Cmd

def snapshotKeys : List Bytes → Cmd (List Rdb.FileCall)
  | [] => pure []
  | key::rest => do
    let at_ ← expireAtMs key
    let now ← nowMs
    if at_≠-1 ∧ at_ ≤ now then snapshotKeys rest
    else
      let found ← lookupRead key
      let others ← snapshotKeys rest
      match found with
      | none => pure others
      | some v => pure (.writeEntry key v at_::others)

def snapshotDb (i : ℕ) : Cmd (List Rdb.FileCall) := inDb i do
  let n ← dbSize
  if n=0 then pure []
  else
    let expires ← onDb fun _ db => ⟨db.expiresSize,db,[]⟩
    let names ← allKeys
    let entries ← snapshotKeys names
    pure (.selectDb i n expires::entries)

def snapshotDbs : List ℕ → Cmd (List Rdb.FileCall)
  | [] => pure []
  | i::rest => do
    let calls ← snapshotDb i
    let others ← snapshotDbs rest
    pure (calls++others)

/-- The calls that `writeRdbFile` makes between `create` and `finish`. -/
def snapshot : Cmd (List Rdb.FileCall) := do
  let n ← databaseCount
  snapshotDbs (List.range n)

def Config.rdbPath (c : Config) : Bytes :=
  if c.dir=[] ∨ c.dir=ascii "." then c.dbfilename else c.dir++ascii "/"++c.dbfilename

section Text

variable [FloatText]

/-- The file that calls produce; none when `finish` returns false. -/
def fileOf (o : Outside) (calls : List Rdb.FileCall) : Option Bytes :=
  ((Rdb.FileWriter.create o.schedule).run calls).finish o.renamed

def writeRdbFile : Act (Option Bytes) := do
  let o ← Act.outside
  match o.createError with
  | some e => pure (some e.text)
  | none =>
    let calls ← fun _ s => Act.onKeyspace o.time 0 2 snapshot s
    match fileOf o calls with
    | none => pure (some (ascii "write failed"))
    | some file =>
      Act.modify fun s => { s with files := Function.update s.files s.config.rdbPath (some file) }
      pure none

def saveRdb : Act (Option Bytes) := do
  let failed ← writeRdbFile
  match failed with
  | some e => pure (some e)
  | none =>
    let o ← Act.outside
    Act.modify fun s =>
      { s with
        keyspace := { s.keyspace with dirty := 0 }
        lastSaveTime := o.time/1000
        rdbSaves := s.rdbSaves+1 }
    pure none

def forkedChild (o : Outside) (s : Server) : Child :=
  let calls := (snapshot ⟨o.time,0,2⟩ s.keyspace).1
  ⟨s.config.rdbPath,if o.createError.isSome then none else fileOf o calls,false,none⟩

def startBackgroundSave : Act (Option Bytes) := do
  let s ← Act.server
  if s.child.isSome then pure (some (ascii "Background save already in progress"))
  else
    let o ← Act.outside
    match o.forkError with
    | some e =>
      Act.modify fun s => { s with lastBgsaveOk := false }
      pure (some e.text)
    | none =>
      Act.modify fun s =>
        { s with child := some (forkedChild o s), dirtyAtFork := s.keyspace.dirty }
      pure none

def childRename (s : Server) : Server :=
  match s.child with
  | some c =>
    if c.renamed then s
    else
      match c.file with
      | none => s
      | some file =>
        { s with
          files := Function.update s.files c.path (some file)
          child := some { c with renamed := true } }
  | none => s

def childExit (clean : Bool) (s : Server) : Server :=
  match s.child with
  | some c => { s with child := some { c with exited := some (clean && c.renamed) } }
  | none => s

def reapBackgroundSave (o : Outside) (s : Server) : Server :=
  match s.child.bind Child.exited with
  | none => s
  | some false => { s with child := none, lastBgsaveOk := false }
  | some true =>
    { s with
      child := none
      lastBgsaveOk := true
      keyspace := { s.keyspace with dirty := s.keyspace.dirty-s.dirtyAtFork }
      lastSaveTime := o.time/1000
      rdbSaves := s.rdbSaves+1 }

/-- When the database index is one of the server's. -/
def restoreLoadedKey (k : Keyspace) (e : Rdb.Emitted) (now : ℤ) : Keyspace :=
  if 0 ≤ e.expireAt ∧ e.expireAt ≤ now then k
  else
    let i := e.db.toNat
    let db := ((k.databases i).setKey e.key e.value).db
    let db := if 0 ≤ e.expireAt then db.setExpireAt e.key e.expireAt else db
    { k with databases := Function.update k.databases i db }

def outOfRange (k : Keyspace) (e : Rdb.Emitted) : Prop := e.db < 0 ∨ (k.count : ℤ) ≤ e.db

instance (k : Keyspace) (e : Rdb.Emitted) : Decidable (outOfRange k e) :=
  inferInstanceAs (Decidable (_ ∨ _))

/-- The keys of a load one after the other; the flag is `load_failed_`. -/
def restoreAll : List Rdb.Emitted → Stream' ℤ → Bool×Keyspace → Bool×Keyspace
  | [],_,r => r
  | e::rest,times,r =>
    restoreAll rest times.tail
      (if outOfRange r.2 e then (true,r.2) else (r.1,restoreLoadedKey r.2 e times.head))

inductive LoadEnd where
  | loaded
  | failed (error : Bytes)
  | raised

def loadContents (contents : Bytes) (o : Outside) (s : Server) : LoadEnd×Server :=
  let r := Rdb.loadFile contents s.keyspace.draws
  let filled := restoreAll r.2.emitted o.loadTimes (false,{ s.keyspace with draws := r.2.draws })
  let s := { s with keyspace := filled.2 }
  match r.1 with
  | .raised => (.raised,s)
  | .failed e => (.failed e,s)
  | .loaded => if filled.1 then (.failed (ascii "database index out of range"),s) else (.loaded,s)

def loadSnapshot (o : Outside) (s : Server) : LoadEnd×Server :=
  match s.files s.config.rdbPath with
  | none => (.loaded,s)
  | some contents =>
    match o.openError with
    | some e => (.failed e.text,s)
    | none =>
      if o.readFailed then (.failed (ascii "read error"),s) else loadContents contents o s

def flushAll (s : Server) : Server :=
  let s := (List.range s.keyspace.count).foldl Server.touchWatchedKeysOnFlush s
  { s with keyspace := { s.keyspace with databases := fun i =>
      if i < s.keyspace.count then (s.keyspace.databases i).flush else s.keyspace.databases i } }

def reloadRdb : Act LoadEnd := do
  let failed ← saveRdb
  match failed with
  | some e => pure (.failed e)
  | none =>
    Act.modify flushAll
    let o ← Act.outside
    if o.interposed then Act.modify childRename
    fun _ s => loadSnapshot o s

end Text

/-! ## Administrative commands -/

namespace Commands

open Act

def infoLine (label : String) (value : Bytes) : Bytes := ascii label++value++crlf

def infoFlag (b : Bool) : Bytes := if b then ascii "1" else ascii "0"

def infoServer (s : Server) (now : ℤ) : Bytes :=
  let uptime := now-s.startTime
  ascii "# Server"++crlf++infoLine "redis_version:7.4.0" []++infoLine "mnemos_version:0.1.0" []++
    infoLine "redis_mode:standalone" []++infoLine "os:Linux" []++infoLine "arch_bits:64" []++
    infoLine "process_id:" (natDecimal s.pid)++infoLine "run_id:" s.runId++
    infoLine "tcp_port:" (intDecimal s.config.port)++
    infoLine "uptime_in_seconds:" (intDecimal (uptime.tdiv 1000))++
    infoLine "uptime_in_days:" (intDecimal ((uptime.tdiv 1000).tdiv 86400))++crlf

def infoClients (s : Server) : Bytes :=
  ascii "# Clients"++crlf++infoLine "connected_clients:" (natDecimal s.order.length)++
    infoLine "maxclients:" (natDecimal s.config.maxClients)++crlf

def infoStats (s : Server) : Bytes :=
  ascii "# Stats"++crlf++
    infoLine "total_connections_received:" (natDecimal s.stats.connectionsReceived)++
    infoLine "total_commands_processed:" (natDecimal s.stats.commandsProcessed)++
    infoLine "total_net_input_bytes:" (natDecimal s.stats.totalNetInput)++
    infoLine "total_net_output_bytes:" (natDecimal s.stats.totalNetOutput)++
    infoLine "rejected_connections:" (natDecimal s.stats.rejectedConnections)++
    infoLine "expired_keys:" (natDecimal s.stats.expiredKeys)++
    infoLine "keyspace_hits:" (natDecimal s.keyspace.hits)++
    infoLine "keyspace_misses:" (natDecimal s.keyspace.misses)++crlf

def infoReplication (s : Server) : Bytes :=
  ascii "# Replication"++crlf++infoLine "role:master" []++infoLine "connected_slaves:0" []++
    infoLine "master_replid:" s.runId++infoLine "master_repl_offset:0" []++crlf

def infoPersistence (s : Server) : Bytes :=
  ascii "# Persistence"++crlf++infoLine "loading:0" []++
    infoLine "rdb_changes_since_last_save:" (natDecimal s.keyspace.dirty)++
    infoLine "rdb_bgsave_in_progress:" (infoFlag s.child.isSome)++
    infoLine "rdb_last_save_time:" (intDecimal s.lastSaveTime)++
    infoLine "rdb_last_bgsave_status:" (if s.lastBgsaveOk then ascii "ok" else ascii "err")++
    infoLine "rdb_saves:" (natDecimal s.rdbSaves)++infoLine "aof_enabled:0" []++crlf

def infoDatabase (s : Server) (i : ℕ) : Bytes :=
  let db := s.keyspace.databases i
  if db.size=0 then []
  else
    infoLine "" (ascii "db"++natDecimal i++ascii ":keys="++natDecimal db.size++
      ascii ",expires="++natDecimal db.expiresSize++ascii ",avg_ttl=0")

def infoKeyspace (s : Server) : Bytes :=
  ascii "# Keyspace"++crlf++(List.range s.keyspace.count).flatMap (infoDatabase s)++crlf

def buildInfo (s : Server) (now : ℤ) (wanted : Bytes) : Bytes :=
  let all := wanted=[] || wanted=ascii "all" || wanted=ascii "everything" || wanted=ascii "default"
  let part := fun (name : String) (text : Bytes) => if all || wanted=ascii name then text else []
  part "server" (infoServer s now)++part "clients" (infoClients s)++part "stats" (infoStats s)++
    part "replication" (infoReplication s)++part "persistence" (infoPersistence s)++
    part "keyspace" (infoKeyspace s)

def info (argv : List Bytes) : Act Response := do
  let fr ← frame
  let s ← server
  let wanted := if 1 < argv.length then toLower (arg argv 1) else []
  pure (.token (.verbatim (buildInfo s fr.now wanted) (ascii "txt")))

def configEntries (c : Config) : List (Bytes×Bytes) :=
  [(ascii "maxmemory",ascii "0"),
    (ascii "maxmemory-policy",ascii "noeviction"),
    (ascii "appendonly",ascii "no"),
    (ascii "save",ascii "3600 1 300 100 60 10000"),
    (ascii "dir",c.dir),
    (ascii "dbfilename",c.dbfilename),
    (ascii "bind",c.bindAddress),
    (ascii "port",intDecimal c.port),
    (ascii "databases",intDecimal c.databases),
    (ascii "maxclients",natDecimal c.maxClients),
    (ascii "requirepass",c.requirepass),
    (ascii "notify-keyspace-events",Notify.formatFlags c.notifyFlags),
    (ascii "proto-max-bulk-len",ascii "536870912"),
    (ascii "timeout",ascii "0"),
    (ascii "tcp-keepalive",ascii "300"),
    (ascii "hash-max-listpack-entries",ascii "512"),
    (ascii "hash-max-listpack-value",ascii "64"),
    (ascii "list-max-listpack-size",ascii "-2"),
    (ascii "set-max-intset-entries",ascii "512"),
    (ascii "set-max-listpack-entries",ascii "128"),
    (ascii "zset-max-listpack-entries",ascii "128"),
    (ascii "zset-max-listpack-value",ascii "64")]

def configGet (c : Config) (wanted : List Bytes) : Response :=
  let matched := (configEntries c).filter fun e =>
    wanted.any fun w => globMatch (toLower w) e.1 false
  .tokens (.mapHeader matched.length::matched.flatMap fun e => [.bulk e.1,.bulk e.2])

/-- The first loop of `CONFIG SET`: every event mask has to be readable. -/
def configValid : List Bytes → Bool
  | name::value::rest =>
    (toLower name != ascii "notify-keyspace-events" || (Notify.parseFlags value).isSome) &&
      configValid rest
  | _ => true

def configApply : List Bytes → Config → Config
  | name::value::rest,c =>
    let name := toLower name
    configApply rest
      (if name=ascii "notify-keyspace-events" then
        { c with notifyFlags := (Notify.parseFlags value).getD c.notifyFlags }
      else if name=ascii "requirepass" then { c with requirepass := value }
      else if name=ascii "dir" then { c with dir := value }
      else if name=ascii "dbfilename" then { c with dbfilename := value }
      else c)
  | _,c => c

def configSet (argv : List Bytes) : Act Response :=
  if argv.length < 4 ∨ (argv.length-2)%2≠0 then pure (.wrongArgs "config|set")
  else if !configValid (argv.drop 2) then
    pure (.error (ascii "ERR CONFIG SET failed (possibly related to argument 'notify-keyspace-events') - Invalid event class character. Use '"++
      Notify.kClassChars++ascii "'."))
  else do
    modify fun s => { s with config := configApply (argv.drop 2) s.config }
    pure .ok

def config (argv : List Bytes) : Act Response := do
  let s ← server
  let sub := toUpper (arg argv 1)
  if sub=ascii "GET" then
    if argv.length < 3 then pure (.wrongArgs "config|get")
    else pure (configGet s.config (argv.drop 2))
  else if sub=ascii "SET" then configSet argv
  else if sub=ascii "RESETSTAT" then
    modify fun s =>
      { s with stats := {}, keyspace := { s.keyspace with hits := 0, misses := 0 } }
    pure .ok
  else pure (unknownOf "CONFIG" (arg argv 1))

def objectReply (sub word : Bytes) (now : ℤ) (v : Value) : Response :=
  if sub=ascii "ENCODING" then .bulk (encodingName v.encoding)
  else if sub=ascii "REFCOUNT" then .integer 1
  else if sub=ascii "IDLETIME" then .integer ((now-v.lastAccess).tdiv 1000)
  else if sub=ascii "FREQ" then
    .err "ERR An LFU maxmemory policy is not selected, access frequency not tracked. Please note that when switching between maxmemory policies at runtime LFU and LRU data will take some time to adjust."
  else unknownOf "OBJECT" word

def object (argv : List Bytes) : Cmd Response :=
  let sub := toUpper (arg argv 1)
  if sub=ascii "HELP" then
    pure (.tokens [.arrayHeader 3,
      .simpleString (ascii "OBJECT ENCODING <key> -- physical representation in use"),
      .simpleString (ascii "OBJECT REFCOUNT <key> -- references to the value"),
      .simpleString (ascii "OBJECT IDLETIME <key> -- seconds since last access")])
  else if argv.length≠3 then pure (.wrongArgs "object")
  else do
    let now ← Cmd.nowMs
    let found ← Cmd.lookupRead (arg argv 2)
    match found with
    | none => pure (.err "ERR no such key")
    | some v => pure (objectReply sub (arg argv 1) now v)

def memory [Platform] (argv : List Bytes) : Cmd Response :=
  let sub := toUpper (arg argv 1)
  if sub=ascii "USAGE" then
    if argv.length < 3 then pure (.wrongArgs "memory|usage")
    else do
      let found ← Cmd.lookupRead (arg argv 2)
      match found with
      | none => pure .nullBulk
      | some v => pure (.integer (Platform.memoryUsage v+(arg argv 2).length))
  else if sub=ascii "DOCTOR" then
    pure (.bulk (ascii "Sam, I detected a few issues in this Redis instance memory implants:\n\n * Everything looks fine from here."))
  else pure (unknownOf "MEMORY" (arg argv 1))

def debugObject [Platform] (argv : List Bytes) : Cmd Response :=
  if argv.length≠3 then pure (.wrongArgs "debug|object")
  else do
    let now ← Cmd.nowMs
    let found ← Cmd.lookupRead (arg argv 2)
    match found with
    | none => pure (.err "ERR no such key")
    | some v =>
      pure (.token (.simpleString (ascii "Value at:0x0 refcount:1 encoding:"++
        encodingName v.encoding++ascii " serializedlength:"++natDecimal (Platform.memoryUsage v)++
        ascii " lru_seconds_idle:"++intDecimal ((now-v.lastAccess).tdiv 1000))))

def dictStats (db : Database) : Response :=
  let d := db.dict.state
  .token (.simpleString (ascii "keyspace_size:"++natDecimal db.size++ascii " buckets:"++
    natDecimal (d.table0.buckets.length+d.table1.buckets.length)++ascii " rehashing:"++
    infoFlag d.isRehashing))

def loadReply : LoadEnd → Response
  | .loaded => .ok
  | .failed e => .error (ascii "ERR "++e)
  | .raised => .terminated

/-- Sleeping takes time and changes nothing else. -/
def debug [Platform] (argv : List Bytes) : Act Response := do
  let c ← client
  let s ← server
  let sub := toUpper (arg argv 1)
  if sub=ascii "SLEEP" ∨ sub=ascii "SET-ACTIVE-EXPIRE" ∨ sub=ascii "JMAP" ∨ sub=ascii "FLUSHALL" then
    pure .ok
  else if sub=ascii "RELOAD" then
    let r ← reloadRdb
    pure (loadReply r)
  else if sub=ascii "OBJECT" then data (debugObject argv)
  else if sub=ascii "STRINGMATCH-LEN" then pure .ok
  else if sub=ascii "DICT-STATS" then pure (dictStats (s.keyspace.databases c.dbIndex))
  else pure (.error (ascii "ERR DEBUG subcommand '"++arg argv 1++ascii "' not supported"))

def time (_ : List Bytes) : Act Response := do
  let o ← outside
  pure (.tokens [.arrayHeader 2,.bulk (intDecimal (o.time/1000)),.bulk (natDecimal o.micros)])

def lastsave (_ : List Bytes) : Act Response := do
  let s ← server
  pure (.integer s.lastSaveTime)

def Server.flushDb (s : Server) (db : ℕ) : Server :=
  let s := s.touchWatchedKeysOnFlush db
  { s with keyspace := { s.keyspace with
      databases := Function.update s.keyspace.databases db (s.keyspace.databases db).flush } }

def Server.markDirty (s : Server) : Server :=
  { s with keyspace := { s.keyspace with dirty := s.keyspace.dirty+1 } }

def flushdb (_ : List Bytes) : Act Response := do
  let c ← client
  modify (Server.flushDb · c.dbIndex)
  modify Server.markDirty
  pure .ok

def flushall (_ : List Bytes) : Act Response := do
  modify flushAll
  modify Server.markDirty
  pure .ok

section Text

variable [FloatText]

def save (_ : List Bytes) : Act Response := do
  let s ← server
  if s.child.isSome then pure (.err "ERR Background save already in progress")
  else
    let failed ← saveRdb
    match failed with
    | some e => pure (.error (ascii "ERR "++e))
    | none => pure .ok

def bgsave (argv : List Bytes) : Act Response :=
  if 2 < argv.length ∨ (argv.length=2 ∧ !isWord (arg argv 1) "SCHEDULE") then pure .syntaxError
  else do
    let failed ← startBackgroundSave
    match failed with
    | some e => pure (.error (ascii "ERR "++e))
    | none => pure (.token (.simpleString (ascii "Background saving started")))

def stop : Act Response := do
  modify fun s => { s with running := false }
  pure (.tokens [])

def shutdown (argv : List Bytes) : Act Response :=
  if 1 < argv.length ∧ isWord (arg argv 1) "ABORT" then pure (.err "ERR No shutdown in progress")
  else if 1 < argv.length ∧ isWord (arg argv 1) "SAVE" then do
    let failed ← saveRdb
    match failed with
    | some _ => pure (.err "ERR Errors trying to SHUTDOWN. Check logs.")
    | none => stop
  else stop

end Text

end Commands

end Mnemos
