import Mnemos.Reading
import Mnemos.Transactions

/-!
# Requests that only read

A command without the write and the administration flag, or one that is not in
the table, leaves what the databases hold; so does a transaction that queues
such commands only.
-/

namespace Mnemos

open List

/-! ## What a queue was given -/

/-- The command is in the table and takes this number of arguments. -/
def Passes (spec : CommandSpec) (argv : List Bytes) : Prop :=
  lookupCommand (arg argv 0)=some spec ∧ arityOk spec argv.length=true

def ServerStep.Asks (fd : ℕ) (P : List Bytes → Prop) (step : ServerStep) : Prop :=
  ∀ now argv,step=.request now fd argv → P argv

theorem passes_of_check {config : Config} {c : Client} {spec : CommandSpec} {argv : List Bytes}
    (hspec : lookupCommand (arg argv 0)=some spec)
    (hcheck : (checkCommand config c spec argv).isSome=false) : Passes spec argv := by
  refine ⟨hspec,?_⟩
  unfold checkCommand at hcheck
  split at hcheck
  · cases hcheck
  · rename_i harity
    simpa using harity

def Given (P : List Bytes → Prop) (argvs : List (List Bytes)) : Prop :=
  ∀ argv∈argvs,P argv ∧ ∃ spec,Passes spec argv

namespace Server

/-- The queue of a connection holds commands with a property that passed the checks. -/
def QueueMeets (P : List Bytes → Prop) (fd : ℕ) (s : Server) : Prop :=
  ∀ c,s.clients fd=some c → Given P c.multiQueue

variable {P : List Bytes → Prop} {fd : ℕ} {s : Server} {argv : List Bytes}

theorem passes_of_queued (h : s.verdict fd argv=.queued) : ∃ spec,Passes spec argv := by
  unfold verdict at h
  cases hspec : lookupCommand (arg argv 0) with
  | none =>
    rw [hspec] at h
    cases h
  | some spec =>
    rw [hspec] at h
    dsimp only at h
    split at h
    · cases h
    · rename_i hcheck
      exact ⟨spec,passes_of_check hspec (Bool.not_eq_true _ ▸ hcheck)⟩

theorem next_given {t : Option Transaction} (hargv : P argv) (h : ∀ q∈t,Given P q.queued) :
    ∀ q∈Transaction.next argv t (s.verdict fd argv),Given P q.queued := by
  intro q hq
  cases hverdict : s.verdict fd argv with
  | refused spec =>
    rw [hverdict] at hq
    cases t with
    | none => cases hq
    | some t =>
      simp only [Transaction.next] at hq
      split at hq
      · cases hq
      · cases hq
        exact h t rfl
  | queued =>
    rw [hverdict] at hq
    cases t with
    | none => cases hq
    | some t =>
      cases hq
      intro a ha
      rcases mem_append.mp ha with ha | ha
      · exact h t rfl a ha
      · rw [mem_singleton.mp ha]
        exact ⟨hargv,passes_of_queued hverdict⟩
  | called spec =>
    rw [hverdict] at hq
    cases t with
    | none =>
      simp only [Transaction.next] at hq
      split at hq
      · cases hq
        exact fun a ha => absurd ha not_mem_nil
      · cases hq
    | some t =>
      simp only [Transaction.next] at hq
      split at hq
      · cases hq
      · cases hq
        exact h _ rfl

section Run

variable [Platform]

theorem observe_given {t : Option Transaction} {step : ServerStep} (hstep : step.Asks fd P)
    (h : ∀ q∈t,Given P q.queued) : ∀ q∈s.observe fd t step,Given P q.queued := by
  intro q hq
  unfold observe at hq
  split at hq
  · cases hq
  split at hq
  · exact h q hq
  cases step with
  | request now other argv =>
    dsimp only at hq
    split at hq
    · rename_i hother
      subst hother
      exact next_given (hstep now argv rfl) h q hq
    · exact h q hq
  | accept now other addr => exact h q hq
  | close other => exact h q hq
  | cron now => exact h q hq
  | childRename => exact h q hq
  | childExit clean => exact h q hq

theorem transactionOf_given (steps : List ServerStep) : ∀ {s : Server} {t : Option Transaction},
    (∀ step∈steps,step.Asks fd P) → (∀ q∈t,Given P q.queued) →
    ∀ q∈transactionOf fd steps s t,Given P q.queued := by
  induction steps with
  | nil => exact fun _ h => h
  | cons step rest ih =>
    intro s t hsteps h
    exact ih (fun x hx => hsteps x (mem_cons_of_mem _ hx))
      (observe_given (hsteps step mem_cons_self) h)

/-- **Queues**: in every run the queue of a connection holds requests of that run. -/
theorem Started.queueMeets (hstart : s.Started) {steps : List ServerStep}
    (hsteps : ∀ step∈steps,step.Asks fd P) : (s.run steps).QueueMeets P fd := by
  have hfollows := (hstart.follows fd).run steps
  have hgiven := transactionOf_given (s := s) (t := none) steps hsteps
    fun _ hq => absurd hq (Option.not_mem_none _)
  intro c hc
  have hfields := hfollows.present c hc
  cases ht : transactionOf fd steps s none with
  | none =>
    rw [ht] at hfields
    rw [(Transaction.fields_none hfields).2.2]
    exact fun a ha => absurd ha not_mem_nil
  | some q =>
    rw [ht] at hfields hgiven
    rw [(Transaction.fields_some hfields).2.2]
    exact hgiven q rfl

theorem queueCalls_meets {fr : Frame} (argvs : List (List Bytes)) : ∀ {s : Server},
    Given P argvs → ∀ call∈queueCalls fr argvs s,P call.argv ∧ Passes call.spec call.argv := by
  induction argvs with
  | nil => exact fun _ call hcall => absurd hcall not_mem_nil
  | cons argv rest ih =>
    intro s hgiven call hcall
    have hrest : Given P rest := fun a ha => hgiven a (mem_cons_of_mem _ ha)
    obtain ⟨hargv,spec,hpasses⟩ := hgiven argv mem_cons_self
    unfold queueCalls at hcall
    rw [hpasses.1] at hcall
    rcases mem_cons.mp hcall with rfl | hcall
    · exact ⟨hargv,hpasses⟩
    · split at hcall
      · exact ih hrest call hcall
      · exact absurd hcall not_mem_nil

/-- **Calls**: a request with the property leads to calls with it. -/
theorem requestCalls_meets {now : ℤ} (h : s.QueueMeets P fd) (hargv : P argv) :
    ∀ call∈s.requestCalls now fd argv,P call.argv ∧ Passes call.spec call.argv := by
  intro call hcall
  unfold requestCalls at hcall
  split at hcall
  · exact absurd hcall not_mem_nil
  rename_i hpresent
  cases hspec : lookupCommand (arg argv 0) with
  | none =>
    rw [hspec] at hcall
    exact absurd hcall not_mem_nil
  | some spec =>
    rw [hspec] at hcall
    dsimp only at hcall
    split at hcall
    · exact absurd hcall not_mem_nil
    rename_i hcheck
    unfold acceptedCalls at hcall
    split at hcall
    · exact absurd hcall not_mem_nil
    split at hcall
    · -- the queue is that of the connection before the call
      obtain ⟨c,hc⟩ : ∃ c,s.clients fd=some c := by
        cases hc : s.clients fd with
        | none => exact absurd (congrArg Option.isNone hc) hpresent
        | some c => exact ⟨c,rfl⟩
      unfold execCalls at hcall
      dsimp only at hcall
      split at hcall
      · exact absurd hcall not_mem_nil
      have hqueue : ((s.enter fd spec.name).clientAt fd).multiQueue=c.multiQueue := by
        rw [clientAt,enter_self hc]
        rfl
      rw [hqueue] at hcall
      exact queueCalls_meets _ (h c hc) call hcall
    · rw [mem_singleton.mp hcall]
      exact ⟨hargv,passes_of_check hspec (Bool.not_eq_true _ ▸ hcheck)⟩

end Run

/-! ## What the databases of the server hold -/

def slots (s : Server) : ℕ×Bytes → Slot := s.keyspace.slots

def SameSlots (_ : ℕ) (s s' : Server) : Prop := s'.slots=s.slots

theorem sameSlots_composes : Act.Composes SameSlots where
  refl _ _ := rfl
  trans h h' := Eq.trans h' h

theorem Beside.slots {s t : Server} (h : s.Beside t) : t.slots=s.slots :=
  congrArg Keyspace.slots h.keyspace

theorem unwatchAllKeys_keyspace (s : Server) (fd : ℕ) :
    (s.unwatchAllKeys fd).keyspace=s.keyspace := by
  unfold unwatchAllKeys
  split <;> rfl

theorem discardTransaction_keyspace (s : Server) (fd : ℕ) :
    (s.discardTransaction fd).keyspace=s.keyspace :=
  unwatchAllKeys_keyspace (s.modifyClient fd Client.resetMultiState) fd

theorem clearSubscriptions_keyspace (s : Server) (fd : ℕ) :
    (s.clearSubscriptions fd).keyspace=s.keyspace := by
  unfold clearSubscriptions
  split <;> rfl

theorem closeClient_keyspace (s : Server) (fd : ℕ) : (s.closeClient fd).keyspace=s.keyspace := by
  unfold closeClient
  split
  · rfl
  · exact (unwatchAllKeys_keyspace _ fd).trans (clearSubscriptions_keyspace s fd)

theorem updateRegistry_keyspace (s : Server) (kind : Commands.SubKind)
    (change : Registry → Registry) :
    (Commands.updateRegistry kind change s).keyspace=s.keyspace := by
  cases kind <;> rfl

theorem watchKey_slots (s : Server) (fd : ℕ) (now : ℤ) (key : Bytes) :
    (Commands.watchKey s fd now key).slots=s.slots := by
  unfold Commands.watchKey
  split
  · rfl
  rename_i c hc
  split
  · rfl
  · exact (Cmd.expireAtMs_effect key ⟨now,c.dbIndex,2⟩ s.keyspace).slots_eq

section Text

variable [FloatText]

theorem write_keyspace (s : Server) (fd protover : ℕ) (r : Response) :
    (s.write fd protover r).keyspace=s.keyspace := by
  unfold write
  split <;> rfl

theorem onKeyspace_slots {A : Type} (s : Server) (now : ℤ) (db protover : ℕ) (c : Cmd A) :
    (Act.onKeyspace now db protover c s).2.slots=(c ⟨now,db,protover⟩ s.unnotified).2.slots := by
  unfold Act.onKeyspace
  dsimp only
  rw [(raise_beside _ _).slots]
  rfl

theorem data_slots {A : Type} (c : Cmd A) (fr : Frame) (s : Server) :
    (Act.data c fr s).2.slots=(c (s.context fr) s.unnotified).2.slots :=
  onKeyspace_slots s fr.now _ fr.protover c

end Text

section Run

variable [Platform]

theorem sameSlots_session : Act.KeptBySession SameSlots where
  toComposes := sameSlots_composes
  setting _ _ _ _ := rfl
  subscribe _ _ kind _ := congrArg Keyspace.slots (updateRegistry_keyspace _ kind _)
  unsubscribe _ _ kind _ := congrArg Keyspace.slots (updateRegistry_keyspace _ kind _)
  publish _ s channel payload := (publishMessage_beside s channel payload).slots
  publishShard _ s channel payload := (publishShardMessage_beside s channel payload).slots
  outside _ _ := rfl
  unwatch fd s := congrArg Keyspace.slots (unwatchAllKeys_keyspace s fd)
  clear fd s := congrArg Keyspace.slots (clearSubscriptions_keyspace s fd)
  discard fd s := congrArg Keyspace.slots (discardTransaction_keyspace s fd)
  multi _ _ := rfl
  watch fd s now key := watchKey_slots s fd now key

theorem dispatch_of_sameSlots {R : ℕ → Server → Server → Prop} {Allowed : Frame → Call → Prop}
    (h : Act.Composes R) (same : ∀ fd {s t : Server},t.slots=s.slots → R fd s t)
    (handler : ∀ (fr : Frame) (call : Call),Allowed fr call →
      R fr.fd (call.before.enter fr.fd call.spec.name)
        (call.spec.handler.run call.argv fr (call.before.enter fr.fd call.spec.name)).2) :
    KeptByDispatch R Allowed where
  toComposes := h
  handler := handler
  enter fd _ _ := same fd rfl
  leave fd _ _ := same fd rfl
  write fd s protover r := same fd (congrArg Keyspace.slots (write_keyspace s fd protover r))
  refused fd _ := same fd rfl
  queued fd _ _ := same fd rfl
  discard fd s := same fd (congrArg Keyspace.slots (discardTransaction_keyspace s fd))
  flushSelf fd _ := same fd rfl
  close fd s := same fd (congrArg Keyspace.slots (closeClient_keyspace s fd))

end Run

end Server

/-! ## Requests that only read -/

/-- The table has no command of this name that writes or administers. -/
def Benign (argv : List Bytes) : Prop :=
  ∀ spec∈lookupCommand (arg argv 0),spec.isWrite=false ∧ spec.has Flags.kAdmin=false

instance (argv : List Bytes) : Decidable (Benign argv) :=
  inferInstanceAs (Decidable (∀ spec∈_,_))

instance (handler : Handler) : Decidable handler.System := by
  cases handler <;> first | exact .isTrue trivial | exact .isFalse False.elim

theorem table_system : ∀ spec∈table,spec.isWrite=false → spec.has Flags.kAdmin=false →
    ¬spec.handler.System := by
  decide +kernel

namespace Server

variable [Platform]

theorem reads_unchanged {handler : DataHandler} (hreads : handler.reads=true) (argv : List Bytes)
    (fr : Frame) (s : Server) :
    Unchanged fr.now s.slots (Act.data (handler.run argv) fr s).2.slots := by
  rw [data_slots]
  exact DataHandler.reads_run hreads (s.context fr) s.unnotified

theorem benign_request {s : Server} {fd : ℕ} (now : ℤ)
    {argv : List Bytes} (hqueue : s.QueueMeets Benign fd) (hargv : Benign argv) :
    Unchanged now s.slots (s.request now fd argv).slots := by
  let Allowed : Frame → Call → Prop := fun fr call =>
    fr.now=now ∧ Benign call.argv ∧ Passes call.spec call.argv
  have hkept : KeptByDispatch (fun _ s s' => Unchanged now s.slots s'.slots) Allowed := by
    refine dispatch_of_sameSlots ⟨fun _ s => .refl now s.slots,fun h h' => h.trans h'⟩
      (fun _ _ _ hsame => hsame ▸ .refl now _) fun fr call hallowed => ?_
    obtain ⟨rfl,hbenign,hspec,-⟩ := hallowed
    obtain ⟨hwrite,hadmin⟩ := hbenign call.spec hspec
    have hmem := lookupCommand_mem hspec
    by_cases hdata : ∃ d,call.spec.handler=.data d
    · obtain ⟨d,hd⟩ := hdata
      have hreads : d.reads=true := by rw [table_reads _ hmem d hd,hwrite]; rfl
      rw [hd]
      exact reads_unchanged hreads call.argv fr _
    · have hsame := Handler.session_keeps sameSlots_session (table_system _ hmem hwrite hadmin)
        (not_exists.mp hdata) call.argv fr (call.before.enter fr.fd call.spec.name)
      exact hsame ▸ .refl fr.now _
  refine hkept.request fun call hcall => ?_
  obtain ⟨hbenign,hpasses⟩ := requestCalls_meets hqueue hargv call hcall
  exact ⟨rfl,hbenign,hpasses⟩

/-- **Reading connections**: in any run whose requests of a connection are benign, further
benign requests of it remove keys past their deadline and change nothing else. -/
theorem benign_requests {s : Server} (hstart : s.Started) {fd : ℕ}
    {steps : List ServerStep} (hsteps : ∀ step∈steps,step.Asks fd Benign)
    (requests : List (ℤ×List Bytes)) (hrequests : ∀ r∈requests,Benign r.2) (p : ℕ×Bytes) :
    let t := s.run steps
    let u := t.run (requests.map fun r => .request r.1 fd r.2)
    u.slots p=t.slots p ∨ (∃ r∈requests,(t.slots p).Due r.1) ∧ u.slots p=.empty := by
  induction requests generalizing steps with
  | nil => exact .inl rfl
  | cons r rest ih =>
    have hr : Benign r.2 := hrequests r mem_cons_self
    have hmore : ∀ step∈steps++[.request r.1 fd r.2],step.Asks fd Benign := by
      intro step hstep
      rcases mem_append.mp hstep with hstep | hstep
      · exact hsteps step hstep
      · rw [mem_singleton.mp hstep]
        intro now argv heq
        cases heq
        exact hr
    have hrest := ih hmore fun x hx => hrequests x (mem_cons_of_mem _ hx)
    have hone : Unchanged r.1 (s.run steps).slots
        ((s.run steps).step (.request r.1 fd r.2)).slots := by
      unfold Server.step
      split
      · exact .refl r.1 _
      · exact benign_request r.1 (hstart.queueMeets hsteps) hr
    rw [Server.run,foldl_append] at hrest
    dsimp only at hrest ⊢
    -- a key that the first request removed stays removed
    rcases hone p with hsame | ⟨hdue,hgone⟩
    · rcases hrest with hkept | ⟨⟨x,hx,hxdue⟩,hgone⟩
      · exact .inl (hkept.trans hsame)
      · exact .inr ⟨⟨x,mem_cons_of_mem _ hx,hsame ▸ hxdue⟩,hgone⟩
    · refine .inr ⟨⟨r,mem_cons_self,hdue⟩,?_⟩
      rcases hrest with hkept | ⟨-,hgone'⟩
      · exact hkept.trans hgone
      · exact hgone'

end Server

section Witness

open Server PlatformReference

attribute [local instance] platform

end Witness

end Mnemos
