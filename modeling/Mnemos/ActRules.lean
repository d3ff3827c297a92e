import Mnemos.Dispatch

/-!
# What handlers keep

A relation between the server before and after an action, given the acting
connection.
-/

namespace Mnemos.Server

/-- Nothing but connections and pending messages differs. -/
def Beside (s s' : Server) : Prop :=
  ∃ clients pending,s'={ s with clients := clients, selfPending := pending }

theorem Beside.refl (s : Server) : s.Beside s := ⟨s.clients,s.selfPending,rfl⟩

theorem Beside.trans {s t u : Server} (h : s.Beside t) (h' : t.Beside u) : s.Beside u := by
  obtain ⟨c,p,rfl⟩ := h
  obtain ⟨c',p',rfl⟩ := h'
  exact ⟨c',p',rfl⟩

theorem Beside.foldl {A : Type} {f : Server → A → Server} (hf : ∀ (s : Server) a,s.Beside (f s a))
    (xs : List A) (s : Server) : s.Beside (xs.foldl f s) := by
  induction xs generalizing s with
  | nil => exact .refl s
  | cons x xs ih => exact (hf s x).trans (ih (f s x))

theorem modifyClient_self (s : Server) (fd : ℕ) (f : Client → Client) :
    (s.modifyClient fd f).clients fd=(s.clients fd).map f := Function.update_self ..

theorem modifyClient_of_ne (s : Server) {fd other : ℕ} (hne : other≠fd) (f : Client → Client) :
    (s.modifyClient fd f).clients other=s.clients other := Function.update_of_ne hne ..

theorem modifyClient_map {A : Type} {g : Client → A} {f : Client → Client}
    (h : ∀ c : Client,g (f c)=g c) (s : Server) (fd other : ℕ) :
    ((s.modifyClient fd f).clients other).map g=(s.clients other).map g := by
  by_cases hother : other=fd
  · subst hother
    rw [modifyClient_self,Option.map_map]
    exact congrArg (Option.map · (s.clients other)) (funext h)
  · rw [modifyClient_of_ne s hother]

theorem closeClient_self (s : Server) (fd : ℕ) : (s.closeClient fd).clients fd=none := by
  unfold closeClient
  split
  · assumption
  · exact Function.update_self ..

theorem modifyClient_beside (s : Server) (fd : ℕ) (f : Client → Client) :
    s.Beside (s.modifyClient fd f) := ⟨_,s.selfPending,rfl⟩

theorem signalModifiedKey_beside (s : Server) (db : ℕ) (key : Bytes) (fromExpiry : Bool) :
    s.Beside (s.signalModifiedKey db key fromExpiry) := ⟨_,s.selfPending,rfl⟩

theorem queueWrite_beside (s : Server) (fd : ℕ) (bytes : Bytes) : s.Beside (s.queueWrite fd bytes) := by
  unfold queueWrite
  split
  · exact ⟨s.clients,_,rfl⟩
  · exact modifyClient_beside s fd _

section Text

variable [FloatText]

variable (s : Server)

theorem deliverMessage_beside (fd : ℕ) (kind : String) (pattern : Option Bytes)
    (channel payload : Bytes) : s.Beside (s.deliverMessage fd kind pattern channel payload) := by
  unfold deliverMessage
  split
  · exact .refl s
  · exact queueWrite_beside s fd _

theorem publishMessage_beside (channel payload : Bytes) :
    s.Beside (s.publishMessage channel payload).2 := by
  unfold publishMessage
  refine Beside.trans (Beside.foldl (fun s fd => ?_) _ s) (Beside.foldl (fun s t => ?_) _ _)
  · exact deliverMessage_beside s fd "message" none channel payload
  · exact deliverMessage_beside s t.2 "pmessage" (some t.1) channel payload

theorem publishShardMessage_beside (channel payload : Bytes) :
    s.Beside (s.publishShardMessage channel payload).2 :=
  Beside.foldl (fun s fd => deliverMessage_beside s fd "smessage" none channel payload) _ s

theorem notifyKeyspaceEvent_beside (ev : Event) :
    s.Beside (s.notifyKeyspaceEvent ev) := by
  unfold notifyKeyspaceEvent
  refine Beside.trans ?_ (Beside.foldl (fun s m => ?_) _ _)
  · split
    · exact signalModifiedKey_beside s _ _ _
    · exact .refl s
  · exact publishMessage_beside s m.1 m.2

theorem raise_beside (events : List Event) : s.Beside (s.raise events) :=
  Beside.foldl notifyKeyspaceEvent_beside events s

end Text

namespace Beside

variable {s t : Server}

theorem keyspace (h : s.Beside t) : t.keyspace=s.keyspace := by
  obtain ⟨c,p,rfl⟩ := h
  rfl

theorem alive (h : s.Beside t) : t.alive=s.alive := by
  obtain ⟨c,p,rfl⟩ := h
  rfl

end Beside

/-! ## Calls of data commands -/

def context (s : Server) (fr : Frame) : Context :=
  ⟨fr.now,((s.clients fr.fd).map (·.dbIndex)).getD 0,fr.protover⟩

def unnotified (s : Server) : Keyspace := { s.keyspace with events := [] }

theorem context_enter (s : Server) (fr : Frame) (name : Bytes) :
    (s.enter fr.fd name).context fr=s.context fr := by
  simp only [context,enter,modifyClient,Function.update_self,Option.map_map]
  rfl

section Run

variable [Platform] {s : Server} {fr : Frame} {spec : CommandSpec} {argv : List Bytes}
variable {handler : DataHandler}

theorem callCommand_data_answer (hspec : spec.handler=.data handler) :
    (s.callCommand fr spec argv).1=(handler.run argv (s.context fr) s.unnotified).1 := by
  rw [←context_enter s fr spec.name,callCommand,hspec]
  rfl

theorem callCommand_data_alive (hspec : spec.handler=.data handler) :
    (s.callCommand fr spec argv).2.alive=s.alive := by
  rw [callCommand,hspec]
  exact (raise_beside _ _).alive

theorem perform_data_alive (hspec : spec.handler=.data handler) (halive : s.alive=true) :
    (s.perform fr spec argv).alive=true ↔
      (handler.run argv (s.context fr) s.unnotified).1≠.terminated := by
  have hexec : spec.handler≠.exec := by
    rw [hspec]
    intro h
    cases h
  rw [perform,if_neg hexec,←callCommand_data_answer hspec]
  have hcall : (s.callCommand fr spec argv).2.alive=true :=
    (callCommand_data_alive hspec).trans halive
  dsimp only
  generalize (s.callCommand fr spec argv).1=r
  cases r <;> simp [write,modifyClient,hcall]

end Run

end Mnemos.Server

/-! ## What handlers keep -/

namespace Mnemos

def Act.Keeps (R : ℕ → Server → Server → Prop) {A : Type} (c : Act A) : Prop :=
  ∀ fr s,R fr.fd s (c fr s).2

theorem Act.server_bind {B : Type} (f : Server → Act B) (fr : Frame) (s : Server) :
    (Act.server >>= f) fr s=f s fr s := rfl

theorem Act.frame_bind {B : Type} (f : Frame → Act B) (fr : Frame) (s : Server) :
    (Act.frame >>= f) fr s=f fr fr s := rfl

theorem Act.modifyClient_bind {B : Type} (f : Client → Client) (g : Unit → Act B) (fr : Frame)
    (s : Server) : (Act.modifyClient f >>= g) fr s=g () fr (s.modifyClient fr.fd f) := rfl

theorem Act.client_bind {B : Type} (f : Client → Act B) (fr : Frame) (s : Server) :
    (Act.client >>= f) fr s=f (s.clientAt fr.fd) fr s := rfl

theorem Act.ite_related {A : Type} {P : Server → Prop} {p : Prop} [Decidable p] {c d : Act A}
    {fr : Frame} {s : Server} (hc : p → P (c fr s).2) (hd : ¬p → P (d fr s).2) :
    P ((if p then c else d) fr s).2 := by
  by_cases hp : p
  · rw [if_pos hp]
    exact hc hp
  · rw [if_neg hp]
    exact hd hp

theorem Act.Keeps.ite {R : ℕ → Server → Server → Prop} {A : Type} {p : Prop} [Decidable p]
    {c d : Act A} (hc : Act.Keeps R c) (hd : Act.Keeps R d) :
    Act.Keeps R (if p then c else d) :=
  fun fr s => Act.ite_related (fun _ => hc fr s) fun _ => hd fr s

def Act.Returns {A : Type} (P : A → Prop) (c : Act A) : Prop := ∀ fr s,P (c fr s).1

namespace Act.Returns

variable {A B : Type} {P : A → Prop}

theorem pure {a : A} (h : P a) : Returns P (Pure.pure a : Act A) := fun _ _ => h

theorem bind {c : Act B} {f : B → Act A} (h : ∀ b,Returns P (f b)) : Returns P (c >>= f) :=
  fun fr _ => h _ fr _

end Act.Returns

structure Act.Composes (R : ℕ → Server → Server → Prop) : Prop where
  refl : ∀ fd s,R fd s s
  trans : ∀ {fd s t u},R fd s t → R fd t u → R fd s u

namespace Act.Composes

variable {R : ℕ → Server → Server → Prop} {A B : Type} (h : Composes R)
include h

theorem pure (a : A) : Keeps R (Pure.pure a : Act A) := fun fr s => h.refl fr.fd s

theorem bind {c : Act A} {f : A → Act B} (hc : Keeps R c) (hf : ∀ a,Keeps R (f a)) :
    Keeps R (c >>= f) :=
  fun fr s => h.trans (hc fr s) (hf _ fr _)

theorem server {f : Server → Act B} (hf : ∀ s,Keeps R (f s)) : Keeps R (Act.server >>= f) :=
  h.bind (fun fr s => h.refl fr.fd s) hf

theorem frame {f : Frame → Act B} (hf : ∀ fr,Keeps R (f fr)) : Keeps R (Act.frame >>= f) :=
  h.bind (fun fr s => h.refl fr.fd s) hf

theorem client {f : Client → Act B} (hf : ∀ c,Keeps R (f c)) : Keeps R (Act.client >>= f) :=
  h.bind (fun fr s => h.refl fr.fd s) hf

theorem foldl {C : Type} {f : Server → C → Server} {fd : ℕ} (hf : ∀ (s : Server) x,R fd s (f s x))
    (xs : List C) (s : Server) : R fd s (xs.foldl f s) := by
  induction xs generalizing s with
  | nil => exact h.refl fd s
  | cons x xs ih => exact h.trans (hf s x) (ih (f s x))

end Act.Composes

/-- Nothing of a transaction, no subscription and no output differs between the two. -/
structure Client.SameSession (c c' : Client) : Prop where
  output : c'.output=c.output
  inMulti : c'.inMulti=c.inMulti
  multiError : c'.multiError=c.multiError
  dirtyCas : c'.dirtyCas=c.dirtyCas
  multiQueue : c'.multiQueue=c.multiQueue
  watchedKeys : c'.watchedKeys=c.watchedKeys
  channels : c'.channels=c.channels
  patterns : c'.patterns=c.patterns
  shardChannels : c'.shardChannels=c.shardChannels

/-- Handlers that touch nothing but data, settings of the connection, subscriptions and messages. -/
def Handler.Ordinary : Handler → Prop
  | .reset | .multi | .exec | .discard | .watch | .unwatch | .flushdb | .flushall | .config | .debug
  | .save | .bgsave | .shutdown => False
  | _ => True

namespace Commands

def addSubscription (kind : SubKind) (name : Bytes) (fd : ℕ) (s : Server) : Server :=
  updateRegistry kind (·.addTo name fd)
    (s.modifyClient fd fun c => withHeld kind (setInsert name (heldBy kind c)) c)

def dropSubscription (kind : SubKind) (name : Bytes) (fd : ℕ) (s : Server) : Server :=
  updateRegistry kind (·.removeFrom name fd)
    (s.modifyClient fd fun c => withHeld kind ((heldBy kind c).erase name) c)

end Commands

section Ordinary

open Commands

variable [Platform]

/-- A relation that settings of the connection, subscriptions and messages keep. -/
structure Act.KeptBySettings (R : ℕ → Server → Server → Prop) : Prop extends Act.Composes R where
  setting : ∀ fd (s : Server) (f : Client → Client),(∀ c : Client,c.SameSession (f c)) →
    R fd s (s.modifyClient fd f)
  subscribe : ∀ fd (s : Server) kind name,R fd s (addSubscription kind name fd s)
  unsubscribe : ∀ fd (s : Server) kind name,R fd s (dropSubscription kind name fd s)
  publish : ∀ fd (s : Server) channel payload,R fd s (s.publishMessage channel payload).2
  publishShard : ∀ fd (s : Server) channel payload,R fd s (s.publishShardMessage channel payload).2
  outside : ∀ fd (s : Server),R fd s { s with world := s.world.tail }

structure Act.KeptByPrimitives (R : ℕ → Server → Server → Prop) : Prop extends
    Act.KeptBySettings R where
  data : ∀ (handler : DataHandler) (argv : List Bytes),Act.Keeps R (Act.data (handler.run argv))

variable {R : ℕ → Server → Server → Prop}

namespace Commands

open Act

variable (h : KeptBySettings R) (argv : List Bytes)
include h

theorem modifyClient_keeps {f : Client → Client} (hf : ∀ c : Client,c.SameSession (f c)) :
    Keeps R (Act.modifyClient f) :=
  fun fr s => h.setting fr.fd s f hf

theorem answered_keeps {f : Client → Client} (hf : ∀ c : Client,c.SameSession (f c))
    (r : Response) : Keeps R (Act.modifyClient f >>= fun _ => Pure.pure r) :=
  h.bind (modifyClient_keeps h hf) fun _ => h.pure r

theorem ping_keeps : Keeps R (ping argv) := by
  unfold ping
  refine h.client fun c => ?_
  repeat' split
  all_goals exact h.pure _

theorem select_keeps : Keeps R (select argv) := by
  unfold select
  refine h.server fun s => ?_
  repeat' split
  · exact h.pure _
  · exact h.pure _
  · refine answered_keeps h (fun c => ?_) _
    exact ⟨rfl,rfl,rfl,rfl,rfl,rfl,rfl,rfl,rfl⟩

theorem hello_keeps : Keeps R (hello argv) := by
  unfold hello
  refine h.client fun c => h.server fun s => ?_
  split
  · exact h.pure _
  refine h.bind (modifyClient_keeps h fun c => ?_) fun _ => ?_
  · exact ⟨rfl,rfl,rfl,rfl,rfl,rfl,rfl,rfl,rfl⟩
  split
  · exact h.pure _
  unfold helloFinish
  split
  · exact h.pure _
  · refine answered_keeps h (fun c => ?_) _
    exact ⟨rfl,rfl,rfl,rfl,rfl,rfl,rfl,rfl,rfl⟩

theorem auth_keeps : Keeps R (auth argv) := by
  unfold auth
  refine h.server fun s => ?_
  repeat' split
  · exact h.pure _
  · exact h.pure _
  · refine answered_keeps h (fun c => ?_) _
    exact ⟨rfl,rfl,rfl,rfl,rfl,rfl,rfl,rfl,rfl⟩
  · exact h.pure _

theorem quit_keeps : Keeps R (quit argv) := by
  refine answered_keeps h (fun c => ?_) _
  exact ⟨rfl,rfl,rfl,rfl,rfl,rfl,rfl,rfl,rfl⟩

theorem setClientName_keeps : Keeps R (setClientName argv) := by
  unfold setClientName
  repeat' split
  · exact h.pure _
  · exact h.pure _
  · refine answered_keeps h (fun c => ?_) _
    exact ⟨rfl,rfl,rfl,rfl,rfl,rfl,rfl,rfl,rfl⟩

theorem clientCommand_keeps : Keeps R (clientCommand argv) := by
  unfold clientCommand
  refine h.frame fun fr => h.client fun c => h.server fun s => ?_
  dsimp only
  repeat' split
  all_goals first
    | exact h.pure _
    | exact setClientName_keeps h argv

variable (kind : SubKind)

theorem subscribeLoop_keeps (names : List Bytes) :
    Keeps R (subscribeLoop kind names) := by
  induction names with
  | nil => exact h.pure _
  | cons name rest ih =>
    change Keeps R (frame >>= _)
    intro fr s
    rw [frame_bind,client_bind]
    dsimp only
    have hrest : Keeps R (do
        let c ← client
        let others ← subscribeLoop kind rest
        Pure.pure (confirm (confirmKind kind true) (some name) (reportedCount kind c)++others)) :=
      h.client fun c => h.bind ih fun _ => h.pure _
    split
    · exact h.trans (h.subscribe fr.fd s kind name) (hrest fr _)
    · exact hrest fr s

theorem subscribeTo_keeps : Keeps R (subscribeTo kind argv) :=
  h.bind (subscribeLoop_keeps h kind _) fun _ => h.pure _

theorem unsubscribeLoop_keeps (names : List Bytes) :
    Keeps R (unsubscribeLoop kind names) := by
  induction names with
  | nil => exact h.pure _
  | cons name rest ih =>
    change Keeps R (frame >>= _)
    intro fr s
    rw [frame_bind,client_bind]
    dsimp only
    have hrest : Keeps R (do
        let c ← client
        let others ← unsubscribeLoop kind rest
        Pure.pure (confirm (confirmKind kind false) (some name) (reportedCount kind c)++others)) :=
      h.client fun c => h.bind ih fun _ => h.pure _
    split
    · exact h.trans (h.unsubscribe fr.fd s kind name) (hrest fr _)
    · exact hrest fr s

theorem unsubscribeFrom_keeps : Keeps R (unsubscribeFrom kind argv) := by
  unfold unsubscribeFrom
  refine h.client fun c => ?_
  dsimp only
  generalize (if 1 < argv.length then argv.drop 1 else heldBy kind c)=targets
  split
  · exact h.pure _
  · exact h.bind (unsubscribeLoop_keeps h kind _) fun _ => h.pure _

theorem pubsub_keeps : Keeps R (pubsub argv) := by
  unfold pubsub
  refine h.server fun s => ?_
  dsimp only
  repeat' split
  all_goals exact h.pure _

theorem info_keeps : Keeps R (info argv) :=
  h.frame fun _ => h.server fun _ => h.pure _

theorem time_keeps : Keeps R (time argv) :=
  h.bind (fun fr s => h.outside fr.fd s) fun _ => h.pure _

end Commands

variable {handler : Handler}

theorem Handler.settings_keeps (h : Act.KeptBySettings R) (hordinary : handler.Ordinary)
    (hdata : ∀ d,handler≠.data d) (argv : List Bytes) :
    Act.Keeps R (handler.run argv) := by
  cases handler with
  | data d => exact absurd rfl (hdata d)
  | ping => exact ping_keeps h argv
  | echo => exact h.pure _
  | select => exact select_keeps h argv
  | hello => exact hello_keeps h argv
  | auth => exact auth_keeps h argv
  | quit => exact quit_keeps h argv
  | client => exact clientCommand_keeps h argv
  | subscribe => exact subscribeTo_keeps h argv .channel
  | unsubscribe => exact unsubscribeFrom_keeps h argv .channel
  | psubscribe => exact subscribeTo_keeps h argv .pattern
  | punsubscribe => exact unsubscribeFrom_keeps h argv .pattern
  | ssubscribe => exact subscribeTo_keeps h argv .shard
  | sunsubscribe => exact unsubscribeFrom_keeps h argv .shard
  | publish => exact fun fr s => h.publish fr.fd s _ _
  | spublish => exact fun fr s => h.publishShard fr.fd s _ _
  | pubsub => exact pubsub_keeps h argv
  | info => exact info_keeps h argv
  | command => exact h.pure _
  | time => exact time_keeps h argv
  | lastsave => exact h.server fun _ => h.pure _
  | _ => cases hordinary

theorem Handler.ordinary_keeps (h : Act.KeptByPrimitives R) (hordinary : handler.Ordinary)
    (argv : List Bytes) : Act.Keeps R (handler.run argv) := by
  by_cases hdata : ∃ d,handler=.data d
  · obtain ⟨d,rfl⟩ := hdata
    exact h.data d argv
  · exact Handler.settings_keeps h.toKeptBySettings hordinary (not_exists.mp hdata) argv

/-- A relation that the primitives of sessions keep: transactions, watches and subscriptions. -/
structure Act.KeptBySession (R : ℕ → Server → Server → Prop) : Prop extends
    Act.KeptBySettings R where
  unwatch : ∀ fd (s : Server),
    R fd s ((s.unwatchAllKeys fd).modifyClient fd fun c => { c with dirtyCas := false })
  clear : ∀ fd (s : Server),R fd s (s.clearSubscriptions fd)
  discard : ∀ fd (s : Server),R fd s (s.discardTransaction fd)
  multi : ∀ fd (s : Server),R fd s (s.modifyClient fd fun c => { c with inMulti := true })
  watch : ∀ fd (s : Server) now key,R fd s (watchKey s fd now key)

/-- A relation that the primitives of flushes and of the administration keep. -/
structure Act.KeptBySystem (R : ℕ → Server → Server → Prop) : Prop extends
    Act.Composes R where
  flushDb : ∀ fd (s : Server) db,R fd s (Commands.Server.flushDb s db)
  flushAll : ∀ fd (s : Server),R fd s (flushAll s)
  markDirty : ∀ fd (s : Server),R fd s (Commands.Server.markDirty s)
  configure : ∀ fd (s : Server) words,
    R fd s { s with config := configApply words s.config }
  resetStat : ∀ fd (s : Server),
    R fd s { s with stats := {}, keyspace := { s.keyspace with hits := 0, misses := 0 } }
  inspect : ∀ argv,Act.Keeps R (Act.data (debugObject argv))
  save : Act.Keeps R saveRdb
  fork : Act.Keeps R startBackgroundSave
  reload : Act.Keeps R reloadRdb
  stop : ∀ fd (s : Server),R fd s { s with running := false }

/-- A relation that the primitives of all handlers but those of a transaction keep. -/
structure Act.KeptByRest (R : ℕ → Server → Server → Prop) : Prop extends
    Act.KeptByPrimitives R,Act.KeptBySystem R where
  unwatch : ∀ fd (s : Server),
    R fd s ((s.unwatchAllKeys fd).modifyClient fd fun c => { c with dirtyCas := false })

structure Act.KeptByAll (R : ℕ → Server → Server → Prop) : Prop extends
    Act.KeptByRest R,Act.KeptBySession R

namespace Commands

open Act

section System

variable (h : KeptBySystem R) (argv : List Bytes)
include h

theorem config_keeps : Keeps R (config argv) := by
  unfold config
  refine h.server fun s => ?_
  dsimp only
  repeat' split
  · exact h.pure _
  · exact h.pure _
  · unfold configSet
    repeat' split
    · exact h.pure _
    · exact h.pure _
    · exact h.bind (fun fr s => h.configure fr.fd s (argv.drop 2)) fun _ => h.pure _
  · exact h.bind (fun fr s => h.resetStat fr.fd s) fun _ => h.pure _
  · exact h.pure _

theorem debug_keeps : Keeps R (debug argv) := by
  unfold debug
  refine h.client fun c => h.server fun s => ?_
  dsimp only
  repeat' split
  · exact h.pure _
  · exact h.bind h.reload fun _ => h.pure _
  · exact h.inspect argv
  · exact h.pure _
  · exact h.pure _
  · exact h.pure _

theorem save_keeps : Keeps R (save argv) := by
  unfold save
  refine h.server fun s => ?_
  split
  · exact h.pure _
  · refine h.bind h.save fun failed => ?_
    split <;> exact h.pure _

theorem bgsave_keeps : Keeps R (bgsave argv) := by
  unfold bgsave
  split
  · exact h.pure _
  · refine h.bind h.fork fun failed => ?_
    split <;> exact h.pure _

theorem shutdown_keeps : Keeps R (shutdown argv) := by
  have hstop : Keeps R stop := h.bind (fun fr s => h.stop fr.fd s) fun _ => h.pure _
  unfold shutdown
  repeat' split
  · exact h.pure _
  · refine h.bind h.save fun failed => ?_
    split
    · exact h.pure _
    · exact hstop
  · exact hstop

end System

section Session

variable (h : KeptBySession R) (argv : List Bytes)
include h

theorem reset_keeps : Keeps R (reset argv) := by
  intro fr s
  refine h.trans (h.clear fr.fd s) (h.trans (h.discard fr.fd _) (h.setting fr.fd _ _ fun c => ?_))
  exact ⟨rfl,rfl,rfl,rfl,rfl,rfl,rfl,rfl,rfl⟩

theorem multi_keeps : Keeps R (multi argv) := by
  unfold multi
  refine h.client fun c => ?_
  split
  · exact h.pure _
  · exact h.bind (fun fr s => h.multi fr.fd s) fun _ => h.pure _

theorem discard_keeps : Keeps R (discard argv) := by
  intro fr s
  unfold discard
  simp only [frame_bind,client_bind]
  exact Act.ite_related (fun _ => h.refl fr.fd s) fun _ => h.discard fr.fd s

theorem watch_keeps : Keeps R (watch argv) := by
  intro fr s
  unfold watch
  simp only [frame_bind,client_bind]
  refine Act.ite_related (fun _ => h.refl fr.fd s) fun _ => ?_
  exact h.foldl (fun s key => h.watch fr.fd s fr.now key) _ s

end Session

end Commands

/-- Handlers that begin or end a transaction or add to its watches. -/
def Handler.Transactional : Handler → Prop
  | .reset | .multi | .discard | .watch => True
  | _ => False

def Handler.System : Handler → Prop
  | .flushdb | .flushall | .config | .debug | .save | .bgsave | .shutdown => True
  | _ => False

theorem Handler.system_keeps (h : Act.KeptBySystem R) (hsystem : handler.System)
    (argv : List Bytes) : Act.Keeps R (handler.run argv) := by
  cases handler with
  | flushdb => exact fun fr s => h.trans (h.flushDb fr.fd s _) (h.markDirty fr.fd _)
  | flushall => exact fun fr s => h.trans (h.flushAll fr.fd s) (h.markDirty fr.fd _)
  | config => exact config_keeps h argv
  | debug => exact debug_keeps h argv
  | save => exact save_keeps h argv
  | bgsave => exact bgsave_keeps h argv
  | shutdown => exact shutdown_keeps h argv
  | data d => cases hsystem
  | _ => cases hsystem

theorem Handler.session_keeps (h : Act.KeptBySession R) (hsystem : ¬handler.System)
    (hdata : ∀ d,handler≠.data d) (argv : List Bytes) :
    Act.Keeps R (handler.run argv) := by
  by_cases hordinary : handler.Ordinary
  · exact Handler.settings_keeps h.toKeptBySettings hordinary hdata argv
  cases handler with
  | reset => exact reset_keeps h argv
  | multi => exact multi_keeps h argv
  | discard => exact discard_keeps h argv
  | watch => exact watch_keeps h argv
  | exec => exact h.pure _
  | unwatch => exact fun fr s => h.unwatch fr.fd s
  | data d => exact absurd trivial hordinary
  | _ => first | exact absurd trivial hordinary | exact absurd trivial hsystem

theorem Handler.rest_keeps (h : Act.KeptByRest R) (hrest : ¬handler.Transactional)
    (argv : List Bytes) : Act.Keeps R (handler.run argv) := by
  by_cases hordinary : handler.Ordinary
  · exact Handler.ordinary_keeps h.toKeptByPrimitives hordinary argv
  by_cases hsystem : handler.System
  · exact Handler.system_keeps h.toKeptBySystem hsystem argv
  cases handler with
  | exec => exact h.pure _
  | unwatch => exact fun fr s => h.unwatch fr.fd s
  | data d => exact absurd trivial hordinary
  | _ =>
    first
    | exact absurd trivial hrest
    | exact absurd trivial hordinary
    | exact absurd trivial hsystem

/-- **All handlers**: what the primitives keep, every handler keeps. -/
theorem Handler.run_keeps (h : Act.KeptByAll R) (handler : Handler) (argv : List Bytes) :
    Act.Keeps R (handler.run argv) := by
  by_cases hrest : handler.Transactional
  · cases handler with
    | reset => exact reset_keeps h.toKeptBySession argv
    | multi => exact multi_keeps h.toKeptBySession argv
    | discard => exact discard_keeps h.toKeptBySession argv
    | watch => exact watch_keeps h.toKeptBySession argv
    | data d => cases hrest
    | _ => cases hrest
  · exact Handler.rest_keeps h.toKeptByRest hrest argv

end Ordinary

/-! ## The calls of a request -/

structure Call where
  before : Server
  spec : CommandSpec
  argv : List Bytes

namespace Server

def frameAt (s : Server) (now : ℤ) (fd : ℕ) : Frame := ⟨now,fd,(s.clientAt fd).protover⟩

section Run

variable [Platform]

def queueCalls (fr : Frame) : List (List Bytes) → Server → List Call
  | [],_ => []
  | argv::rest,s =>
    match lookupCommand (arg argv 0) with
    | none => queueCalls fr rest s
    | some spec =>
      let r := s.callCommand fr spec argv
      let s' := r.2.write fr.fd fr.protover r.1
      ⟨s,spec,argv⟩::if s'.alive then queueCalls fr rest s' else []

def execStart (s : Server) (fr : Frame) : Server :=
  (s.discardTransaction fr.fd).write fr.fd fr.protover
    (.token (.arrayHeader (s.clientAt fr.fd).multiQueue.length))

def execCalls (s : Server) (fr : Frame) : List Call :=
  let c := s.clientAt fr.fd
  if c.inMulti=false ∨ c.multiError=true ∨ c.dirtyCas=true then []
  else queueCalls fr c.multiQueue (s.execStart fr)

def acceptedCalls (s : Server) (fr : Frame) (spec : CommandSpec) (argv : List Bytes) : List Call :=
  if (s.clientAt fr.fd).inMulti ∧ isTransactionControl spec.name=false then []
  else if spec.handler=.exec then (s.enter fr.fd spec.name).execCalls fr
  else [⟨s,spec,argv⟩]

def requestCalls (s : Server) (now : ℤ) (fd : ℕ) (argv : List Bytes) : List Call :=
  if (s.clients fd).isNone then []
  else
    match lookupCommand (arg argv 0) with
    | none => []
    | some spec =>
      if (checkCommand s.config (s.clientAt fd) spec argv).isSome then []
      else s.acceptedCalls ⟨now,fd,(s.clientAt fd).protover⟩ spec argv

structure KeptByCalls (R : ℕ → Server → Server → Prop) (Allowed : Frame → Call → Prop) : Prop extends
    Act.Composes R where
  handler : ∀ (fr : Frame) (call : Call),Allowed fr call →
    R fr.fd (call.before.enter fr.fd call.spec.name)
      (call.spec.handler.run call.argv fr (call.before.enter fr.fd call.spec.name)).2
  enter : ∀ fd (s : Server) name,R fd s (s.enter fd name)
  leave : ∀ fd (s : Server) previous,R fd s (s.leave previous)
  write : ∀ fd (s : Server) protover r,R fd s (s.write fd protover r)

/-- A relation that answering a request keeps, for calls that meet a condition. -/
structure KeptByAnswer (R : ℕ → Server → Server → Prop) (Allowed : Frame → Call → Prop) : Prop extends
    KeptByCalls R Allowed where
  refused : ∀ fd (s : Server),
    R fd s (s.modifyClient fd fun c => { c with multiError := c.multiError || c.inMulti })
  queued : ∀ fd (s : Server) argv,
    R fd s (s.modifyClient fd fun c => { c with multiQueue := c.multiQueue++[argv] })
  discard : ∀ fd (s : Server),R fd s (s.discardTransaction fd)
  flushSelf : ∀ fd (s : Server),R fd s (s.flushSelf fd)

/-- A relation that the dispatcher keeps, for calls that meet a condition. -/
structure KeptByDispatch (R : ℕ → Server → Server → Prop) (Allowed : Frame → Call → Prop) : Prop extends
    KeptByAnswer R Allowed where
  close : ∀ fd (s : Server),R fd s (s.closeClient fd)

namespace KeptByCalls

variable {R : ℕ → Server → Server → Prop} {Allowed : Frame → Call → Prop} (h : KeptByCalls R Allowed)
include h

theorem call {fr : Frame} {s : Server} {spec : CommandSpec} {argv : List Bytes}
    (hallowed : Allowed fr ⟨s,spec,argv⟩) : R fr.fd s (s.callCommand fr spec argv).2 :=
  h.trans (h.enter fr.fd s spec.name)
    (h.trans (h.handler fr ⟨s,spec,argv⟩ hallowed) (h.leave fr.fd _ _))

theorem queue {fr : Frame} (argvs : List (List Bytes)) : ∀ {s : Server},
    (∀ c∈queueCalls fr argvs s,Allowed fr c) → R fr.fd s (runQueue fr argvs s) := by
  induction argvs with
  | nil => exact fun _ => h.refl _ _
  | cons argv rest ih =>
    intro s hcalls
    unfold runQueue
    unfold queueCalls at hcalls
    cases hspec : lookupCommand (arg argv 0) with
    | none =>
      rw [hspec] at hcalls
      exact ih hcalls
    | some spec =>
      rw [hspec] at hcalls
      have hcall : R fr.fd s ((s.callCommand fr spec argv).2.write fr.fd fr.protover
          (s.callCommand fr spec argv).1) :=
        h.trans (h.call (hcalls _ List.mem_cons_self)) (h.write fr.fd _ _ _)
      dsimp only at hcalls ⊢
      by_cases halive : ((s.callCommand fr spec argv).2.write fr.fd fr.protover
          (s.callCommand fr spec argv).1).alive=true
      · rw [if_pos halive] at hcalls ⊢
        exact h.trans hcall (ih fun c hc => hcalls c (List.mem_cons_of_mem _ hc))
      · rw [if_neg halive]
        exact hcall

end KeptByCalls

namespace KeptByAnswer

variable {R : ℕ → Server → Server → Prop} {Allowed : Frame → Call → Prop} (h : KeptByAnswer R Allowed)
include h

theorem exec {fr : Frame} {s : Server} (hcalls : ∀ c∈s.execCalls fr,Allowed fr c) :
    R fr.fd s (s.exec fr) := by
  unfold Server.exec
  unfold execCalls at hcalls
  dsimp only at hcalls ⊢
  have hdiscard : ∀ r,R fr.fd s ((s.discardTransaction fr.fd).write fr.fd fr.protover r) :=
    fun r => h.trans (h.discard fr.fd s) (h.write fr.fd _ _ r)
  split
  · exact h.write _ _ _ _
  split
  · exact hdiscard _
  split
  · exact hdiscard _
  · rename_i hmulti herror hdirty
    rw [if_neg (by simp_all)] at hcalls
    exact h.trans (hdiscard _) (h.queue _ hcalls)

theorem accepted {fr : Frame} {s : Server} {spec : CommandSpec} {argv : List Bytes}
    (hcalls : ∀ c∈s.acceptedCalls fr spec argv,Allowed fr c) :
    R fr.fd s (s.accepted fr spec argv) := by
  unfold Server.accepted
  unfold acceptedCalls at hcalls
  by_cases hqueue : (s.clientAt fr.fd).inMulti ∧ isTransactionControl spec.name=false
  · rw [if_pos hqueue]
    exact h.trans (h.queued fr.fd s argv) (h.write fr.fd _ _ _)
  rw [if_neg hqueue] at hcalls ⊢
  refine h.trans ?_ (h.flushSelf fr.fd _)
  unfold perform
  by_cases hexec : spec.handler=.exec
  · rw [if_pos hexec] at hcalls ⊢
    exact h.trans (h.enter fr.fd s spec.name) (h.trans (h.exec hcalls) (h.leave fr.fd _ _))
  · rw [if_neg hexec] at hcalls ⊢
    exact h.trans (h.call (hcalls _ List.mem_cons_self)) (h.write fr.fd _ _ _)

theorem reject {fd : ℕ} {s : Server} (protover : ℕ) (spec : Option CommandSpec) (r : Refusal) :
    R fd s (s.reject fd protover spec r) := by
  unfold Server.reject
  refine h.trans (h.refused fd s) ?_
  split
  · exact h.trans (h.discard fd _) (h.write fd _ _ _)
  · exact h.write fd _ _ _

theorem dispatch {now : ℤ} {fd : ℕ} {s : Server} {argv : List Bytes}
    (hpresent : ¬(s.clients fd).isNone=true)
    (hcalls : ∀ c∈s.requestCalls now fd argv,Allowed (s.frameAt now fd) c) :
    R fd s (s.dispatch now fd argv) := by
  unfold requestCalls at hcalls
  rw [if_neg hpresent] at hcalls
  unfold Server.dispatch
  dsimp only
  cases hspec : lookupCommand (arg argv 0) with
  | none => exact h.reject _ _ _
  | some spec =>
    rw [hspec] at hcalls
    dsimp only at hcalls ⊢
    cases hcheck : checkCommand s.config (s.clientAt fd) spec argv with
    | some r => exact h.reject _ _ _
    | none =>
      rw [hcheck] at hcalls
      exact @accepted _ _ _ h (s.frameAt now fd) _ _ _ hcalls

end KeptByAnswer

/-- **Requests**: a request keeps what its calls keep. -/
theorem KeptByDispatch.request {R : ℕ → Server → Server → Prop} {Allowed : Frame → Call → Prop}
    (h : KeptByDispatch R Allowed) {now : ℤ} {fd : ℕ} {s : Server} {argv : List Bytes}
    (hcalls : ∀ c∈s.requestCalls now fd argv,Allowed (s.frameAt now fd) c) :
    R fd s (s.request now fd argv) := by
  unfold Server.request
  split
  · exact h.refl fd s
  rename_i hpresent
  have hdispatch := h.dispatch hpresent hcalls
  dsimp only
  split
  · exact h.trans hdispatch (h.close fd _)
  · exact hdispatch

end Run

end Server

end Mnemos
