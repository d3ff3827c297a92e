import Mnemos.ActRules

/-!
# Bystanders

What a step of one connection can do to another: append messages to its output,
mark it dirty, and withdraw the mark of a watch whose key was past its
deadline.
-/

open List

namespace Mnemos

structure WatchedKey.Later (w w' : WatchedKey) : Prop where
  db : w'.db=w.db
  key : w'.key=w.key
  expired : w'.expired=true → w.expired=true

theorem WatchedKey.Later.refl (w : WatchedKey) : w.Later w := ⟨rfl,rfl,id⟩

theorem WatchedKey.Later.trans {w w' w'' : WatchedKey} (h : w.Later w') (h' : w'.Later w'') :
    w.Later w'' :=
  ⟨h'.db.trans h.db,h'.key.trans h.key,fun he => h.expired (h'.expired he)⟩

theorem WatchedKey.forall_later_trans {ws ws' ws'' : List WatchedKey}
    (h : Forall₂ Later ws ws') (h' : Forall₂ Later ws' ws'') :
    Forall₂ Later ws ws'' := by
  induction h generalizing ws'' with
  | nil => exact h'
  | cons hw _ ih =>
    cases h' with
    | cons hw' htail => exact .cons (hw.trans hw') (ih htail)

structure Client.Touched (c c' : Client) : Prop where
  same : ∃ output dirty watched,
    c'={ c with output := output, dirtyCas := dirty, watchedKeys := watched }
  output : c.output <+: c'.output
  dirty : c.dirtyCas=true → c'.dirtyCas=true
  watched : Forall₂ WatchedKey.Later c.watchedKeys c'.watchedKeys

namespace Client.Touched

theorem refl (c : Client) : c.Touched c where
  same := ⟨c.output,c.dirtyCas,c.watchedKeys,rfl⟩
  output := prefix_refl _
  dirty := fun h => h
  watched := forall₂_same.mpr fun w _ => WatchedKey.Later.refl w

theorem trans {c c' c'' : Client} (h : c.Touched c') (h' : c'.Touched c'') : c.Touched c'' where
  same := by
    obtain ⟨o,d,w,rfl⟩ := h.same
    obtain ⟨o',d',w',rfl⟩ := h'.same
    exact ⟨o',d',w',rfl⟩
  output := h.output.trans h'.output
  dirty hd := h'.dirty (h.dirty hd)
  watched := WatchedKey.forall_later_trans h.watched h'.watched

theorem append (c : Client) (bytes : Bytes) : c.Touched { c with output := c.output++bytes } where
  same := ⟨_,c.dirtyCas,c.watchedKeys,rfl⟩
  output := prefix_append _ _
  dirty := fun h => h
  watched := forall₂_same.mpr fun w _ => WatchedKey.Later.refl w

theorem signal (c : Client) (db : ℕ) (key : Bytes) (fromExpiry : Bool) :
    c.Touched (c.signal db key fromExpiry) := by
  unfold Client.signal
  split
  · refine ⟨⟨c.output,c.dirtyCas,_,rfl⟩,prefix_refl _,fun h => h,?_⟩
    rw [forall₂_map_right_iff]
    refine forall₂_same.mpr fun w _ => ?_
    split
    · exact ⟨rfl,rfl,nofun⟩
    · exact WatchedKey.Later.refl w
  · exact ⟨⟨c.output,true,c.watchedKeys,rfl⟩,prefix_refl _,fun _ => rfl,
      forall₂_same.mpr fun w _ => WatchedKey.Later.refl w⟩

end Client.Touched

namespace Server

/-- Another connection is there before and after, and only touched. -/
def Touches (fd : ℕ) (s s' : Server) : Prop :=
  Option.Rel Client.Touched (s.clients fd) (s'.clients fd)

def Aside (fd : ℕ) (s s' : Server) : Prop := ∀ other,other≠fd → Touches other s s'

section Touches

variable {fd : ℕ} {s t u : Server}

theorem Touches.of_eq (h : t.clients fd=s.clients fd) : Touches fd s t := by
  unfold Touches
  rw [h]
  cases s.clients fd with
  | none => exact .none
  | some c => exact .some (.refl c)

theorem Touches.trans (h : Touches fd s t) (h' : Touches fd t u) : Touches fd s u := by
  unfold Touches at *
  revert h h'
  generalize s.clients fd=a,t.clients fd=b,u.clients fd=c
  rintro (hab|-) (hbc|-)
  · exact .some (hab.trans hbc)
  · exact .none

theorem Touches.map {f : Client → Client} (hf : ∀ c : Client,c.Touched (f c))
    (h : t.clients fd=(s.clients fd).map f) : Touches fd s t := by
  unfold Touches
  rw [h]
  cases s.clients fd with
  | none => exact .none
  | some c => exact .some (hf c)

end Touches

def registry (s : Server) : Commands.SubKind → Registry
  | .channel => s.channels
  | .pattern => s.patterns
  | .shard => s.shardChannels

/-- What events can do: every connection is only touched, the one whose command runs gets no
output yet, and one that watches nothing is not marked. -/
structure Spares (s s' : Server) : Prop where
  touches : ∀ fd,Touches fd s s'
  silent : ∀ fd,s.executing=some fd →
    (s'.clients fd).map (·.output)=(s.clients fd).map (·.output)
  unmarked : ∀ fd,(∀ db key,fd∉(s.watched db).under key) →
    (s'.clients fd).map (·.dirtyCas)=(s.clients fd).map (·.dirtyCas)
  watched : s'.watched=s.watched
  executing : s'.executing=s.executing
  registries : s'.registry=s.registry

section Spares

variable {s t u : Server}

theorem Spares.of_clients (h : t.clients=s.clients) (hw : t.watched=s.watched)
    (he : t.executing=s.executing) (hr : t.registry=s.registry) : s.Spares t where
  touches fd := .of_eq (congrFun h fd)
  silent fd _ := by rw [h]
  unmarked fd _ := by rw [h]
  watched := hw
  executing := he
  registries := hr

theorem Spares.refl (s : Server) : s.Spares s := .of_clients rfl rfl rfl rfl

theorem Spares.trans (h : s.Spares t) (h' : t.Spares u) : s.Spares u where
  touches fd := (h.touches fd).trans (h'.touches fd)
  silent fd he := (h'.silent fd (h.executing.trans he)).trans (h.silent fd he)
  unmarked fd hf := by
    refine Eq.trans (h'.unmarked fd fun db key => ?_) (h.unmarked fd hf)
    rw [h.watched]
    exact hf db key
  watched := h'.watched.trans h.watched
  executing := h'.executing.trans h.executing
  registries := h'.registries.trans h.registries

theorem Spares.foldl {A : Type} {f : Server → A → Server} (hf : ∀ (s : Server) a,s.Spares (f s a))
    (xs : List A) (s : Server) : s.Spares (xs.foldl f s) := by
  induction xs generalizing s with
  | nil => exact .refl s
  | cons x xs ih => exact (hf s x).trans (ih (f s x))

end Spares

theorem modifyClient_aside (fd : ℕ) (s : Server) (f : Client → Client) :
    Aside fd s (s.modifyClient fd f) :=
  fun _ hne => .of_eq (modifyClient_of_ne s hne f)

section Events

variable (s : Server)

theorem signalModifiedKey_spares (db : ℕ) (key : Bytes) (fromExpiry : Bool) :
    s.Spares (s.signalModifiedKey db key fromExpiry) := by
  have hself : ∀ fd,fd∈(s.watched db).under key →
      (s.signalModifiedKey db key fromExpiry).clients fd=
        (s.clients fd).map (·.signal db key fromExpiry) := fun fd hfd => if_pos hfd
  have hother : ∀ fd,fd∉(s.watched db).under key →
      (s.signalModifiedKey db key fromExpiry).clients fd=s.clients fd := fun fd hfd => if_neg hfd
  refine ⟨fun fd => ?_,fun fd _ => ?_,fun fd hnone => ?_,rfl,rfl,rfl⟩
  · by_cases hfd : fd∈(s.watched db).under key
    · exact .map (fun c => .signal c db key fromExpiry) (hself fd hfd)
    · exact .of_eq (hother fd hfd)
  · by_cases hfd : fd∈(s.watched db).under key
    · rw [hself fd hfd,Option.map_map]
      refine congrArg (Option.map · (s.clients fd)) (funext fun c => ?_)
      change (c.signal db key fromExpiry).output=c.output
      unfold Client.signal
      split <;> rfl
    · rw [hother fd hfd]
  · rw [hother fd (hnone db key)]

theorem queueWrite_spares (fd : ℕ) (bytes : Bytes) : s.Spares (s.queueWrite fd bytes) := by
  unfold queueWrite
  split
  · exact .of_clients rfl rfl rfl rfl
  rename_i hexecuting
  refine ⟨fun other => ?_,fun other he => ?_,fun other _ => ?_,rfl,rfl,rfl⟩
  · by_cases hother : other=fd
    · subst hother
      exact .map (fun c => .append c bytes) (modifyClient_self ..)
    · exact .of_eq (modifyClient_of_ne s hother _)
  · have hother : other≠fd := fun h => hexecuting (h ▸ he)
    rw [modifyClient_of_ne s hother]
  · by_cases hother : other=fd
    · subst hother
      rw [modifyClient_self,Option.map_map]
      rfl
    · rw [modifyClient_of_ne s hother]

theorem touchWatchedKeysOnFlush_spares (db : ℕ) : s.Spares (s.touchWatchedKeysOnFlush db) :=
  .foldl (fun s key => signalModifiedKey_spares s db key false) _ s

variable [FloatText]

theorem deliverMessage_spares (fd : ℕ) (kind : String) (pattern : Option Bytes)
    (channel payload : Bytes) : s.Spares (s.deliverMessage fd kind pattern channel payload) := by
  unfold deliverMessage
  split
  · exact .refl s
  · exact queueWrite_spares s fd _

theorem publishMessage_spares (channel payload : Bytes) :
    s.Spares (s.publishMessage channel payload).2 := by
  unfold publishMessage
  refine Spares.trans (Spares.foldl (fun s other => ?_) _ s) (Spares.foldl (fun s t => ?_) _ _)
  · exact deliverMessage_spares s other "message" none channel payload
  · exact deliverMessage_spares s t.2 "pmessage" (some t.1) channel payload

theorem publishShardMessage_spares (channel payload : Bytes) :
    s.Spares (s.publishShardMessage channel payload).2 :=
  .foldl (fun s other => deliverMessage_spares s other "smessage" none channel payload) _ s

theorem notifyKeyspaceEvent_spares (ev : Event) : s.Spares (s.notifyKeyspaceEvent ev) := by
  unfold notifyKeyspaceEvent
  refine Spares.trans ?_ (Spares.foldl (fun s m => ?_) _ _)
  · split
    · exact signalModifiedKey_spares s _ _ _
    · exact .refl s
  · exact publishMessage_spares s m.1 m.2

theorem raise_spares (events : List Event) : s.Spares (s.raise events) :=
  .foldl (fun s ev => notifyKeyspaceEvent_spares s ev) events s

theorem onKeyspace_spares {A : Type} (now : ℤ) (db protover : ℕ) (c : Cmd A) :
    s.Spares (Act.onKeyspace now db protover c s).2 := by
  refine Spares.trans (t := { s with keyspace :=
    { (c ⟨now,db,protover⟩ { s.keyspace with events := [] }).2 with events := [] } }) ?_ ?_
  · exact .of_clients rfl rfl rfl rfl
  · exact raise_spares _ _

end Events

theorem flushAll_spares (s : Server) : s.Spares (flushAll s) := by
  refine Spares.trans (t := (List.range s.keyspace.count).foldl touchWatchedKeysOnFlush s) ?_ ?_
  · exact .foldl touchWatchedKeysOnFlush_spares _ s
  · exact .of_clients rfl rfl rfl rfl

theorem childRename_spares (s : Server) : s.Spares (childRename s) := by
  unfold childRename
  split
  · split
    · exact .refl s
    · split
      · exact .refl s
      · exact .of_clients rfl rfl rfl rfl
  · exact .refl s

theorem childExit_spares (clean : Bool) (s : Server) : s.Spares (childExit clean s) := by
  unfold childExit
  split
  · exact .of_clients rfl rfl rfl rfl
  · exact .refl s

theorem spares_composes : Act.Composes fun _ => Spares where
  refl _ := .refl
  trans := .trans

section Files

variable [FloatText]

theorem writeRdbFile_spares : Act.Keeps (fun _ => Spares) writeRdbFile := by
  have h := spares_composes
  unfold writeRdbFile
  refine h.bind (fun fr s => .of_clients rfl rfl rfl rfl) fun o => ?_
  split
  · exact h.pure _
  refine h.bind (fun fr s => onKeyspace_spares s _ _ _ _) fun calls => ?_
  split
  · exact h.pure _
  · exact h.bind (fun fr s => .of_clients rfl rfl rfl rfl) fun _ => h.pure _

theorem saveRdb_spares : Act.Keeps (fun _ => Spares) saveRdb := by
  have h := spares_composes
  unfold saveRdb
  refine h.bind writeRdbFile_spares fun failed => ?_
  split
  · exact h.pure _
  refine h.bind (fun fr s => .of_clients rfl rfl rfl rfl) fun o => ?_
  exact h.bind (fun fr s => .of_clients rfl rfl rfl rfl) fun _ => h.pure _

theorem startBackgroundSave_spares : Act.Keeps (fun _ => Spares) startBackgroundSave := by
  have h := spares_composes
  unfold startBackgroundSave
  refine h.server fun s => ?_
  split
  · exact h.pure _
  refine h.bind (fun fr s => .of_clients rfl rfl rfl rfl) fun o => ?_
  split <;> exact h.bind (fun fr s => .of_clients rfl rfl rfl rfl) fun _ => h.pure _

theorem loadSnapshot_spares (o : Outside) (s : Server) : s.Spares (loadSnapshot o s).2 := by
  unfold loadSnapshot
  split
  · exact .refl s
  split
  · exact .refl s
  split
  · exact .refl s
  unfold loadContents
  dsimp only
  split
  · exact .of_clients rfl rfl rfl rfl
  · exact .of_clients rfl rfl rfl rfl
  · split <;> exact .of_clients rfl rfl rfl rfl

theorem reloadRdb_spares : Act.Keeps (fun _ => Spares) reloadRdb := by
  have h := spares_composes
  unfold reloadRdb
  refine h.bind saveRdb_spares fun failed => ?_
  split
  · exact h.pure _
  refine h.bind (fun fr s => flushAll_spares s) fun _ => ?_
  refine h.bind (fun fr s => .of_clients rfl rfl rfl rfl) fun o => ?_
  dsimp only
  have hload : Act.Keeps (fun _ => Spares) fun _ s => loadSnapshot o s :=
    fun fr s => loadSnapshot_spares o s
  exact .ite (h.bind (fun fr s => childRename_spares s) fun _ => hload) hload

end Files

section Registries

variable (s : Server) (kind : Commands.SubKind) (change : Registry → Registry)

@[simp] theorem updateRegistry_clients :
    (Commands.updateRegistry kind change s).clients=s.clients := by
  cases kind <;> rfl

@[simp] theorem updateRegistry_watched :
    (Commands.updateRegistry kind change s).watched=s.watched := by
  cases kind <;> rfl

@[simp] theorem updateRegistry_executing :
    (Commands.updateRegistry kind change s).executing=s.executing := by
  cases kind <;> rfl

end Registries

section Aside

theorem aside_composes : Act.Composes Aside where
  refl _ _ _ _ := .of_eq rfl
  trans h h' other hne := (h other hne).trans (h' other hne)

theorem Spares.aside {s t : Server} (h : s.Spares t) (fd : ℕ) : Aside fd s t :=
  fun other _ => h.touches other

theorem Aside.of_clients {fd : ℕ} {s t : Server} (h : t.clients=s.clients) : Aside fd s t :=
  fun other _ => .of_eq (congrFun h other)

theorem unwatchAllKeys_aside (fd : ℕ) (s : Server) : Aside fd s (s.unwatchAllKeys fd) := by
  unfold unwatchAllKeys
  split
  · exact .of_clients rfl
  · exact aside_composes.trans (.of_clients rfl) (modifyClient_aside fd _ _)

theorem discardTransaction_aside (fd : ℕ) (s : Server) : Aside fd s (s.discardTransaction fd) :=
  aside_composes.trans (modifyClient_aside fd s _) (unwatchAllKeys_aside fd _)

theorem clearSubscriptions_aside (fd : ℕ) (s : Server) : Aside fd s (s.clearSubscriptions fd) := by
  unfold clearSubscriptions
  split
  · exact .of_clients rfl
  · exact aside_composes.trans (.of_clients rfl) (modifyClient_aside fd _ _)

theorem closeClient_aside (fd : ℕ) (s : Server) : Aside fd s (s.closeClient fd) := by
  unfold closeClient
  split
  · exact .of_clients rfl
  · refine aside_composes.trans (clearSubscriptions_aside fd s) ?_
    refine aside_composes.trans (unwatchAllKeys_aside fd _) ?_
    exact fun other hne => .of_eq (Function.update_of_ne hne ..)

theorem watchKey_aside (fd : ℕ) (s : Server) (now : ℤ) (key : Bytes) :
    Aside fd s (Commands.watchKey s fd now key) := by
  unfold Commands.watchKey
  split
  · exact .of_clients rfl
  split
  · exact .of_clients rfl
  · exact aside_composes.trans (.of_clients rfl) (modifyClient_aside fd _ _)

variable [Platform]

/-- Handlers outside transactions: besides what spares connections, they change settings,
subscriptions and watches of their own. -/
theorem rest_of_spares {R : ℕ → Server → Server → Prop} (h : Act.Composes R)
    (spares : ∀ {s t : Server} fd,s.Spares t → R fd s t)
    (setting : ∀ fd (s : Server) (f : Client → Client),(∀ c : Client,c.SameSession (f c)) →
      R fd s (s.modifyClient fd f))
    (subscribe : ∀ fd (s : Server) kind name,R fd s (Commands.addSubscription kind name fd s))
    (unsubscribe : ∀ fd (s : Server) kind name,R fd s (Commands.dropSubscription kind name fd s))
    (unwatch : ∀ fd (s : Server),
      R fd s ((s.unwatchAllKeys fd).modifyClient fd fun c => { c with dirtyCas := false })) :
    Act.KeptByRest R where
  toComposes := h
  data _ _ fr s := spares fr.fd (onKeyspace_spares s _ _ _ _)
  setting := setting
  subscribe := subscribe
  unsubscribe := unsubscribe
  publish fd s _ _ := spares fd (publishMessage_spares s _ _)
  publishShard fd s _ _ := spares fd (publishShardMessage_spares s _ _)
  outside fd _ := spares fd (.of_clients rfl rfl rfl rfl)
  unwatch := unwatch
  flushDb fd s db := spares fd
    ((touchWatchedKeysOnFlush_spares s db).trans (.of_clients rfl rfl rfl rfl))
  flushAll fd s := spares fd (flushAll_spares s)
  markDirty fd _ := spares fd (.of_clients rfl rfl rfl rfl)
  configure fd _ _ := spares fd (.of_clients rfl rfl rfl rfl)
  resetStat fd _ := spares fd (.of_clients rfl rfl rfl rfl)
  inspect _ fr s := spares fr.fd (onKeyspace_spares s _ _ _ _)
  save fr s := spares fr.fd (saveRdb_spares fr s)
  fork fr s := spares fr.fd (startBackgroundSave_spares fr s)
  reload fr s := spares fr.fd (reloadRdb_spares fr s)
  stop fd _ := spares fd (.of_clients rfl rfl rfl rfl)

theorem rest_of_apart {R : ℕ → Server → Server → Prop} (h : Act.Composes R)
    (spares : ∀ {s t : Server} fd,s.Spares t → R fd s t)
    (setting : ∀ fd (s : Server) (f : Client → Client),(∀ c : Client,c.SameSession (f c)) →
      R fd s (s.modifyClient fd f))
    (held : ∀ fd (s : Server) kind (names : Client → List Bytes),
      R fd s (s.modifyClient fd fun c => Commands.withHeld kind (names c) c))
    (registries : ∀ fd {s t : Server},t.clients=s.clients → t.watched=s.watched →
      t.executing=s.executing → R fd s t)
    (unwatch : ∀ fd (s : Server),
      R fd s ((s.unwatchAllKeys fd).modifyClient fd fun c => { c with dirtyCas := false })) :
    Act.KeptByRest R := by
  have hregistry : ∀ fd (s : Server) kind change,R fd s (Commands.updateRegistry kind change s) :=
    fun fd s kind change => registries fd (updateRegistry_clients s kind change)
      (updateRegistry_watched s kind change) (updateRegistry_executing s kind change)
  exact rest_of_spares h spares setting
    (fun fd s kind name => h.trans (held fd s kind _) (hregistry fd _ kind _))
    (fun fd s kind name => h.trans (held fd s kind _) (hregistry fd _ kind _)) unwatch

theorem aside_rest : Act.KeptByRest Aside :=
  rest_of_apart aside_composes (fun fd h => h.aside fd) (fun fd s f _ => modifyClient_aside fd s f)
    (fun fd s _ _ => modifyClient_aside fd s _) (fun _ _ _ h _ _ => .of_clients h) fun fd s =>
      aside_composes.trans (unwatchAllKeys_aside fd s) (modifyClient_aside fd _ _)

theorem aside_all : Act.KeptByAll Aside where
  toKeptByRest := aside_rest
  clear := clearSubscriptions_aside
  discard := discardTransaction_aside
  multi fd s := modifyClient_aside fd s _
  watch := watchKey_aside

theorem aside_dispatch : KeptByDispatch Aside fun _ _ => True where
  toComposes := aside_composes
  handler fr call _ := Handler.run_keeps aside_all call.spec.handler call.argv fr _
  enter fd s name := aside_composes.trans (.of_clients rfl) (modifyClient_aside fd _ _)
  leave _ _ _ := .of_clients rfl
  write fd s protover r := by
    unfold write
    split
    · exact .of_clients rfl
    · exact modifyClient_aside fd s _
  refused fd s := modifyClient_aside fd s _
  queued fd s argv := modifyClient_aside fd s _
  discard := discardTransaction_aside
  flushSelf fd s := aside_composes.trans (.of_clients rfl) (modifyClient_aside fd _ _)
  close := closeClient_aside

end Aside

end Server

def ServerStep.actor : ServerStep → Option ℕ
  | .accept _ fd _ => some fd
  | .request _ fd _ => some fd
  | .close fd => some fd
  | .cron _ | .childRename | .childExit _ => none

namespace Server

variable [Platform]

theorem serverCron_spares (s : Server) (now : ℤ) : s.Spares (s.serverCron now) := by
  unfold serverCron
  dsimp only
  refine Spares.trans (t := reapBackgroundSave s.world.head { s with world := s.world.tail }) ?_ ?_
  · unfold reapBackgroundSave
    split <;> exact .of_clients rfl rfl rfl rfl
  refine Spares.trans (Spares.foldl (fun s i => ?_) _ _) (.of_clients rfl rfl rfl rfl)
  exact Spares.trans (onKeyspace_spares s now i 2 (expireCycle i)) (.of_clients rfl rfl rfl rfl)

/-- **Bystanders**: a step of others, of the timer or of the child only touches a connection. -/
theorem step_touches {fd : ℕ} {s : Server} {step : ServerStep} (h : step.actor≠some fd) :
    Touches fd s (s.step step) := by
  unfold Server.step
  split
  · exact .of_eq rfl
  cases step with
  | accept now other addr =>
    have hne : fd≠other := fun he => h (congrArg some he.symm)
    dsimp only
    unfold accept
    split
    · exact .of_eq rfl
    split
    · exact .of_eq rfl
    · exact .of_eq (Function.update_of_ne hne ..)
  | request now other argv =>
    have hne : fd≠other := fun he => h (congrArg some he.symm)
    exact aside_dispatch.request (fun _ _ => trivial) fd hne
  | close other =>
    have hne : fd≠other := fun he => h (congrArg some he.symm)
    exact closeClient_aside other s fd hne
  | cron now => exact (serverCron_spares s now).touches fd
  | childRename => exact (childRename_spares s).touches fd
  | childExit clean => exact (childExit_spares clean s).touches fd

/-- **Isolation**: without a step of its own a connection keeps its session and its output, to
which messages may be added, whatever the others do. -/
theorem isolation {fd : ℕ} {s : Server} {steps : List ServerStep}
    (h : ∀ step∈steps,step.actor≠some fd) : Touches fd s (s.run steps) := by
  induction steps generalizing s with
  | nil => exact .of_eq rfl
  | cons step steps ih =>
    rw [forall_mem_cons] at h
    exact (step_touches h.1).trans (ih h.2)

end Server

section Witness

open Server PlatformReference

attribute [local instance] platform

theorem Server.isolation_transaction :
    let s := started.run [.accept 1000 7 [],.accept 1000 8 [],.request 1000 7 [ascii "MULTI"]]
    let steps := [.request 1001 8 [ascii "FLUSHALL"],.cron 1100,.close 8]
    (s.clients 7).any (·.inMulti)∧Touches 7 s (s.run steps) :=
  ⟨by decide +kernel,isolation (by decide)⟩

end Witness

/-! ## The index of watched keys -/

def Client.watches (c : Client) : List (ℕ×Bytes) := c.watchedKeys.map fun w => (w.db,w.key)

theorem Client.Touched.watches {c c' : Client} (h : c.Touched c') : c'.watches=c.watches := by
  have hwatched := h.watched
  unfold Client.watches
  revert hwatched
  generalize c.watchedKeys=ws,c'.watchedKeys=ws'
  intro hwatched
  induction hwatched with
  | nil => rfl
  | cons hw _ ih => simp only [map_cons,hw.db,hw.key,ih]

namespace Server

/-- The keys that a connection watches; none when there is no such connection. -/
def watchesOf (s : Server) (fd : ℕ) : List (ℕ×Bytes) := ((s.clients fd).map Client.watches).getD []

def Watches (s : Server) (fd db : ℕ) (key : Bytes) : Prop :=
  ∃ c,s.clients fd=some c ∧ (db,key)∈c.watches

theorem watches_iff {s : Server} {fd db : ℕ} {key : Bytes} :
    s.Watches fd db key ↔ (db,key)∈s.watchesOf fd := by
  unfold Watches watchesOf
  cases s.clients fd with
  | none => simp
  | some c => simp

structure Indexed (s : Server) : Prop where
  index : ∀ db,(s.watched db).Agrees fun fd key => s.Watches fd db key
  once : ∀ fd,(s.watchesOf fd).Nodup

structure SameWatches (s s' : Server) : Prop where
  watched : s'.watched=s.watched
  watches : ∀ fd,s'.watchesOf fd=s.watchesOf fd

section SameWatches

variable {s s' : Server}

theorem SameWatches.iff (h : SameWatches s s') {fd db : ℕ} {key : Bytes} :
    s'.Watches fd db key ↔ s.Watches fd db key := by
  rw [watches_iff,watches_iff,h.watches]

theorem Indexed.of_same (hi : s.Indexed) (h : SameWatches s s') : s'.Indexed where
  index db := by
    rw [h.watched]
    exact (hi.index db).congr fun _ _ => h.iff.symm
  once fd := by
    rw [h.watches]
    exact hi.once fd

theorem SameWatches.of_map (hw : s'.watched=s.watched)
    (h : ∀ fd,(s'.clients fd).map Client.watches=(s.clients fd).map Client.watches) :
    SameWatches s s' where
  watched := hw
  watches fd := by
    unfold watchesOf
    rw [h fd]

theorem Spares.sameWatches (h : s.Spares s') : SameWatches s s' := by
  refine .of_map h.watched fun fd => ?_
  have htouch := h.touches fd
  unfold Touches at htouch
  revert htouch
  generalize s.clients fd=a,s'.clients fd=b
  rintro (hc|-)
  · exact congrArg some hc.watches
  · rfl

theorem sameWatches_modifyClient (s : Server) (fd : ℕ) {f : Client → Client}
    (hf : ∀ c : Client,(f c).watches=c.watches) : SameWatches s (s.modifyClient fd f) :=
  .of_map rfl (modifyClient_map hf s fd)

end SameWatches

theorem agrees_unwatched (fd : ℕ) (ws : List WatchedKey) : ∀ {watched : ℕ → Registry}
    {Holds : ℕ → ℕ → Bytes → Prop},(∀ db,(watched db).Agrees (Holds db)) →
    ∀ db,((ws.foldl (fun watched w =>
      Function.update watched w.db ((watched w.db).removeFrom w.key fd)) watched) db).Agrees
        fun x key => Holds db x key ∧ ¬(x=fd ∧ (db,key)∈ws.map fun w => (w.db,w.key)) := by
  induction ws with
  | nil => exact fun h db => (h db).congr fun x key => by simp
  | cons w ws ih =>
    intro watched Holds h db
    have hone : ∀ db,(Function.update watched w.db ((watched w.db).removeFrom w.key fd) db).Agrees
        fun x key => Holds db x key ∧ ¬(x=fd ∧ (db,key)=(w.db,w.key)) := by
      intro db
      by_cases hdb : db=w.db
      · subst hdb
        rw [Function.update_self]
        exact ((h w.db).removeFrom w.key fd).congr fun x key => by simp
      · rw [Function.update_of_ne hdb]
        exact (h db).congr fun x key => by simp [hdb]
    refine (ih hone db).congr fun x key => ?_
    rw [map_cons,mem_cons]
    tauto

theorem unwatchAllKeys_self (s : Server) (fd : ℕ) :
    (s.unwatchAllKeys fd).clients fd=(s.clients fd).map fun c => { c with watchedKeys := [] } := by
  unfold unwatchAllKeys
  split
  · rename_i hnone
    rw [hnone]
    rfl
  · exact modifyClient_self ..

theorem unwatchAllKeys_of_ne (s : Server) {fd other : ℕ} (hne : other≠fd) :
    (s.unwatchAllKeys fd).clients other=s.clients other := by
  unfold unwatchAllKeys
  split
  · rfl
  · exact modifyClient_of_ne _ hne _

theorem watchesOf_unwatchAllKeys (s : Server) (fd other : ℕ) :
    (s.unwatchAllKeys fd).watchesOf other=if other=fd then [] else s.watchesOf other := by
  unfold watchesOf
  split
  · rename_i hother
    rw [hother,unwatchAllKeys_self,Option.map_map]
    cases s.clients fd <;> rfl
  · rename_i hother
    rw [unwatchAllKeys_of_ne s hother]

theorem watched_unwatchAllKeys (s : Server) (fd : ℕ) :
    (s.unwatchAllKeys fd).watched=(((s.clients fd).map (·.watchedKeys)).getD []).foldl
      (fun watched w => Function.update watched w.db ((watched w.db).removeFrom w.key fd))
        s.watched := by
  unfold unwatchAllKeys
  cases s.clients fd <;> rfl

section Indexed

variable {s : Server}

theorem Indexed.mem (h : s.Indexed) {db : ℕ} {key : Bytes} {fd : ℕ} :
    fd∈(s.watched db).under key ↔ s.Watches fd db key := (h.index db).mem

theorem Indexed.unwatchAllKeys (h : s.Indexed) (fd : ℕ) : (s.unwatchAllKeys fd).Indexed where
  index db := by
    rw [watched_unwatchAllKeys]
    refine (agrees_unwatched fd _ h.index db).congr fun x key => ?_
    have hlist : (((s.clients fd).map (·.watchedKeys)).getD []).map (fun w => (w.db,w.key))=
        s.watchesOf fd := by
      unfold watchesOf
      cases s.clients fd <;> rfl
    rw [hlist,watches_iff,watches_iff,watchesOf_unwatchAllKeys]
    split
    · rename_i hx
      rw [hx]
      simp
    · rename_i hx
      simp [hx]
  once other := by
    rw [watchesOf_unwatchAllKeys]
    split
    · exact .nil
    · exact h.once other

theorem Indexed.discardTransaction (h : s.Indexed) (fd : ℕ) : (s.discardTransaction fd).Indexed := by
  have hreset : SameWatches s (s.modifyClient fd Client.resetMultiState) :=
    sameWatches_modifyClient s fd fun _ => rfl
  exact (h.of_same hreset).unwatchAllKeys fd

theorem Indexed.clearSubscriptions (h : s.Indexed) (fd : ℕ) : (s.clearSubscriptions fd).Indexed := by
  unfold Server.clearSubscriptions
  split
  · exact h
  · refine Indexed.of_same ?_ (sameWatches_modifyClient _ fd fun _ => rfl)
    exact h.of_same ⟨rfl,fun _ => rfl⟩

theorem sameWatches_update (fd : ℕ) (c : Option Client) (hs : s.watchesOf fd=[])
    (hc : ∀ c'∈c,c'.watches=[]) {t : Server} (hw : t.watched=s.watched)
    (ht : t.clients=Function.update s.clients fd c) : SameWatches s t where
  watched := hw
  watches other := by
    unfold watchesOf at hs ⊢
    rw [ht]
    by_cases hother : other=fd
    · subst hother
      rw [Function.update_self,hs]
      cases c with
      | none => rfl
      | some c' => exact hc c' rfl
    · rw [Function.update_of_ne hother]

theorem Indexed.closeClient (h : s.Indexed) (fd : ℕ) : (s.closeClient fd).Indexed := by
  have hbefore := (h.clearSubscriptions fd).unwatchAllKeys fd
  unfold Server.closeClient
  split
  · exact h
  refine hbefore.of_same (sameWatches_update fd none ?_ ?_ rfl rfl)
  · rw [watchesOf_unwatchAllKeys,if_pos rfl]
  · exact fun c' hc' => absurd hc' (Option.not_mem_none c')

theorem Indexed.accept (h : s.Indexed) (now : ℤ) (fd : ℕ) (addr : Bytes) :
    (s.accept now fd addr).Indexed := by
  unfold Server.accept
  split
  · exact h.of_same ⟨rfl,fun _ => rfl⟩
  split
  · exact h
  rename_i hnone
  simp only [Bool.not_eq_true,Option.isSome_eq_false_iff,Option.isNone_iff_eq_none] at hnone
  refine h.of_same (sameWatches_update fd _ ?_ ?_ rfl rfl)
  · unfold watchesOf
    rw [hnone]
    rfl
  · intro c' hc'
    rw [←Option.mem_some_iff.mp hc']
    rfl

theorem Indexed.watchKey (h : s.Indexed) (fd : ℕ) (now : ℤ) (key : Bytes) :
    (Commands.watchKey s fd now key).Indexed := by
  unfold Commands.watchKey
  split
  · exact h
  rename_i c hc
  split
  · exact h
  rename_i hnew
  dsimp only
  generalize ht : modifyClient _ fd _=t
  have hself : t.watchesOf fd=c.watches++[(c.dbIndex,key)] := by
    unfold watchesOf
    rw [←ht,modifyClient_self]
    dsimp only
    rw [hc]
    simp [Client.watches]
  have hother : ∀ x,x≠fd → t.watchesOf x=s.watchesOf x := by
    intro x hx
    unfold watchesOf
    rw [←ht,modifyClient_of_ne _ hx]
  have hlist : s.watchesOf fd=c.watches := by
    unfold watchesOf
    rw [hc]
    rfl
  have hwatched : t.watched=Function.update s.watched c.dbIndex
      ((s.watched c.dbIndex).addTo key fd) := by
    rw [←ht]
    rfl
  have hwatches : ∀ x db k,t.Watches x db k ↔
      (x=fd ∧ db=c.dbIndex ∧ k=key) ∨ s.Watches x db k := by
    intro x db k
    rw [watches_iff,watches_iff]
    by_cases hx : x=fd
    · subst hx
      rw [hself,hlist,mem_append,mem_singleton,Prod.mk.injEq]
      tauto
    · rw [hother x hx]
      simp [hx]
  refine ⟨fun db => ?_,fun x => ?_⟩
  · rw [hwatched]
    by_cases hdb : db=c.dbIndex
    · subst hdb
      rw [Function.update_self]
      refine ((h.index c.dbIndex).addTo key fd).congr fun x k => ?_
      rw [hwatches]
      tauto
    · rw [Function.update_of_ne hdb]
      refine (h.index db).congr fun x k => ?_
      rw [hwatches]
      tauto
  · by_cases hx : x=fd
    · subst hx
      have honce := h.once x
      rw [hlist] at honce
      rw [hself,nodup_append]
      refine ⟨honce,nodup_singleton _,fun p hp q hq hpq => ?_⟩
      rw [mem_singleton.mp hq] at hpq
      obtain ⟨w,hw,hpair⟩ := mem_map.mp hp
      simp only [any_eq_true,not_exists,not_and] at hnew
      have := hnew w hw
      rw [hpq] at hpair
      simp_all
    · rw [hother x hx]
      exact h.once x

end Indexed

def KeepsIndex (_ : ℕ) (s s' : Server) : Prop := s.Indexed → s'.Indexed

theorem keepsIndex_composes : Act.Composes KeepsIndex where
  refl _ _ h := h
  trans h h' hi := h' (h hi)

theorem Spares.keepsIndex {s s' : Server} (h : s.Spares s') (fd : ℕ) : KeepsIndex fd s s' :=
  fun hi => hi.of_same h.sameWatches

theorem KeepsIndex.of_clients {fd : ℕ} {s s' : Server} (hc : s'.clients=s.clients)
    (hw : s'.watched=s.watched) : KeepsIndex fd s s' :=
  fun hi => hi.of_same (.of_map hw fun _ => by rw [hc])

theorem keepsIndex_modifyClient (fd : ℕ) (s : Server) {f : Client → Client}
    (hf : ∀ c : Client,(f c).watches=c.watches) : KeepsIndex fd s (s.modifyClient fd f) :=
  fun hi => hi.of_same (sameWatches_modifyClient s fd hf)

section Run

variable [Platform]

theorem keepsIndex_rest : Act.KeptByRest KeepsIndex := by
  refine rest_of_apart keepsIndex_composes (fun fd h => h.keepsIndex fd) (fun fd s f hf => ?_)
    (fun fd s kind names => ?_) (fun _ _ _ hc hw _ => .of_clients hc hw) fun fd s hi => ?_
  · refine keepsIndex_modifyClient fd s fun c => ?_
    unfold Client.watches
    rw [(hf c).watchedKeys]
  · refine keepsIndex_modifyClient fd s fun c => ?_
    cases kind <;> rfl
  · exact (hi.unwatchAllKeys fd).of_same (sameWatches_modifyClient _ fd fun _ => rfl)

theorem keepsIndex_all : Act.KeptByAll KeepsIndex where
  toKeptByRest := keepsIndex_rest
  clear fd _ hi := hi.clearSubscriptions fd
  discard fd _ hi := hi.discardTransaction fd
  multi fd s := keepsIndex_modifyClient fd s fun _ => rfl
  watch fd _ now key hi := hi.watchKey fd now key

theorem keepsIndex_dispatch : KeptByDispatch KeepsIndex fun _ _ => True where
  toComposes := keepsIndex_composes
  handler fr call _ := Handler.run_keeps keepsIndex_all call.spec.handler call.argv fr _
  enter fd s _ := keepsIndex_composes.trans (t := { s with executing := some fd })
    (.of_clients rfl rfl) (keepsIndex_modifyClient fd _ fun _ => rfl)
  leave _ _ _ := .of_clients rfl rfl
  write fd s protover r := by
    unfold write
    split
    · exact .of_clients rfl rfl
    · exact keepsIndex_modifyClient fd s fun _ => rfl
  refused fd s := keepsIndex_modifyClient fd s fun _ => rfl
  queued fd s _ := keepsIndex_modifyClient fd s fun _ => rfl
  discard fd _ hi := hi.discardTransaction fd
  flushSelf fd s := keepsIndex_composes.trans (t := { s with selfPending := [] })
    (.of_clients rfl rfl) (keepsIndex_modifyClient fd _ fun _ => rfl)
  close fd _ hi := hi.closeClient fd

theorem Indexed.step {s : Server} (h : s.Indexed) (step : ServerStep) : (s.step step).Indexed := by
  unfold Server.step
  split
  · exact h
  cases step with
  | accept now fd addr => exact h.accept now fd addr
  | request now fd argv => exact keepsIndex_dispatch.request (fun _ _ => trivial) h
  | close fd => exact h.closeClient fd
  | cron now => exact h.of_same (serverCron_spares s now).sameWatches
  | childRename => exact h.of_same (childRename_spares s).sameWatches
  | childExit clean => exact h.of_same (childExit_spares clean s).sameWatches

theorem Indexed.run (steps : List ServerStep) : ∀ {s : Server},s.Indexed → (s.run steps).Indexed := by
  induction steps with
  | nil => exact fun h => h
  | cons step rest ih => exact fun h => ih (h.step step)

end Run

theorem start_spares [FloatText] {s t : Server} (h : s.start=some t) : s.Spares t := by
  unfold start at h
  dsimp only at h
  split at h
  · cases h
    refine Spares.trans (t := { s with world := s.world.tail, startTime := s.world.head.time })
      (.of_clients rfl rfl rfl rfl) ?_
    refine Spares.trans (loadSnapshot_spares s.world.head _) ?_
    exact .of_clients rfl rfl rfl rfl
  · cases h

theorem Started.clients [FloatText] {s : Server} (h : s.Started) (fd : ℕ) : s.clients fd=none := by
  obtain ⟨config,draws,runId,pid,files,world,h⟩ := h
  have htouch := (start_spares h).touches fd
  unfold Touches at htouch
  cases hc : s.clients fd with
  | none => rfl
  | some c =>
    rw [hc] at htouch
    cases htouch

theorem Started.indexed [FloatText] {s : Server} (h : s.Started) : s.Indexed := by
  obtain ⟨config,draws,runId,pid,files,world,h⟩ := h
  refine Indexed.of_same ?_ (start_spares h).sameWatches
  refine ⟨fun db => Registry.agrees_empty ?_,fun fd => .nil⟩
  rintro fd key ⟨c,hc,-⟩
  cases hc

/-- **The index of watched keys**: in every state that a started server reaches, a descriptor is
under a key exactly when its connection is there and watches that key, no connection watches a key
twice, and every key of the index has watchers, all of them connected. -/
theorem watch_index [Platform] {s : Server} (h : s.Started) (steps : List ServerStep) :
    (∀ db key fd,fd∈((s.run steps).watched db).under key ↔
      ∃ c,(s.run steps).clients fd=some c ∧ (db,key)∈c.watches) ∧
    (∀ fd c,(s.run steps).clients fd=some c → c.watches.Nodup) ∧
    (∀ db key,key∈((s.run steps).watched db).names ↔ ((s.run steps).watched db).under key≠[]) ∧
    ∀ db key fd,fd∈((s.run steps).watched db).under key → ((s.run steps).clients fd).isSome := by
  have hindexed := h.indexed.run steps
  refine ⟨fun db key fd => hindexed.mem,fun fd c hc => ?_,fun db => (hindexed.index db).named,
    fun db key fd hfd => ?_⟩
  · have honce := hindexed.once fd
    unfold watchesOf at honce
    rw [hc] at honce
    exact honce
  · obtain ⟨c,hc,-⟩ := hindexed.mem.mp hfd
    rw [hc]
    rfl

section Witness

open PlatformReference

attribute [local instance] platform

theorem watch_index_two_connections :
    let steps := [.accept 1000 7 [],.accept 1000 8 [],
      .request 1000 7 [ascii "WATCH",ascii "k"],.request 1001 7 [ascii "SELECT",ascii "1"],
      .request 1002 7 [ascii "WATCH",ascii "k"],.request 1003 8 [ascii "WATCH",ascii "k"],.close 8]
    let t := started.run steps
    started.Started ∧
      (∃ c,t.clients 7=some c ∧ (0,ascii "k")∈c.watches) ∧
      (∃ c,t.clients 7=some c ∧ (1,ascii "k")∈c.watches) ∧
      ¬∃ c,t.clients 8=some c ∧ (0,ascii "k")∈c.watches := by
  intro steps t
  have hindex := (watch_index started_started steps).1
  exact ⟨started_started,(hindex 0 (ascii "k") 7).mp (by decide +kernel),
    (hindex 1 (ascii "k") 7).mp (by decide +kernel),
    fun hwatches => absurd ((hindex 0 (ascii "k") 8).mpr hwatches) (by decide +kernel)⟩

end Witness

end Server

end Mnemos
