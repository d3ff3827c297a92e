import Mnemos.Bystanders

/-!
# What a connection has seen of its transaction

The verdicts on its requests tell a connection what is queued since `MULTI` and
whether something was refused.
-/

namespace Mnemos

/-! ## What a transaction keeps -/

/-- What a connection keeps of a transaction: that it is open, that a command was refused, and the
queued commands. -/
def Client.transaction (c : Client) : Bool×Bool×List (List Bytes) :=
  (c.inMulti,c.multiError,c.multiQueue)

/-- A connection outside transactions, with nothing left of one. -/
structure Client.Idle (c : Client) : Prop where
  inMulti : c.inMulti=false
  multiError : c.multiError=false
  dirtyCas : c.dirtyCas=false
  multiQueue : c.multiQueue=[]
  watchedKeys : c.watchedKeys=[]

def Queueable (argv : List Bytes) : Prop :=
  ∃ spec∈lookupCommand (arg argv 0),isTransactionControl spec.name=false

instance (argv : List Bytes) : Decidable (Queueable argv) :=
  inferInstanceAs (Decidable (∃ spec∈_,_))

instance (handler : Handler) : Decidable handler.Transactional := by
  unfold Handler.Transactional
  split <;> infer_instance

theorem transactional_control : ∀ spec∈table,spec.handler.Transactional →
    isTransactionControl spec.name=true := by
  decide +kernel

theorem exec_control : ∀ spec∈table,spec.handler=.exec → isTransactionControl spec.name=true := by
  decide +kernel

theorem Queueable.spec {argv : List Bytes} (h : Queueable argv) :
    ∃ spec,lookupCommand (arg argv 0)=some spec ∧ ¬spec.handler.Transactional ∧
      spec.handler≠.exec := by
  obtain ⟨spec,hspec,hcontrol⟩ := h
  refine ⟨spec,hspec,fun h => ?_,fun h => ?_⟩
  · have := transactional_control spec (lookupCommand_mem hspec) h
    simp_all
  · have := exec_control spec (lookupCommand_mem hspec) h
    simp_all

namespace Server

def KeepsTransaction (fd : ℕ) (s s' : Server) : Prop :=
  (s'.clients fd).map Client.transaction=(s.clients fd).map Client.transaction

def Silent (fd : ℕ) (s s' : Server) : Prop :=
  s.executing=some fd → s'.executing=some fd ∧
    (s'.clients fd).map (·.output)=(s.clients fd).map (·.output)

section Relations

variable {s t : Server} {fd : ℕ}

theorem keepsTransaction_composes : Act.Composes KeepsTransaction where
  refl _ _ := rfl
  trans h h' := h'.trans h

theorem Touches.keepsTransaction (h : Touches fd s t) : KeepsTransaction fd s t := by
  unfold Touches at h
  unfold KeepsTransaction
  revert h
  generalize s.clients fd=a,t.clients fd=b
  rintro (hc|-)
  · obtain ⟨o,d,w,rfl⟩ := hc.same
    rfl
  · rfl

theorem keepsTransaction_modifyClient (s : Server) (fd : ℕ) {f : Client → Client}
    (h : ∀ c : Client,(f c).transaction=c.transaction) : KeepsTransaction fd s (s.modifyClient fd f) :=
  modifyClient_map h s fd fd

theorem unwatchAllKeys_keepsTransaction (s : Server) (fd : ℕ) :
    KeepsTransaction fd s (s.unwatchAllKeys fd) := by
  unfold KeepsTransaction
  rw [unwatchAllKeys_self,Option.map_map]
  rfl

theorem watchKey_keepsTransaction (s : Server) (fd : ℕ) (now : ℤ) (key : Bytes) :
    KeepsTransaction fd s (Commands.watchKey s fd now key) := by
  unfold Commands.watchKey
  split
  · rfl
  split
  · rfl
  · refine modifyClient_map (fun c => ?_) _ fd fd
    rfl

end Relations

section Run

variable [Platform]

theorem keepsTransaction_rest : Act.KeptByRest KeepsTransaction := by
  refine rest_of_apart keepsTransaction_composes (fun fd h => (h.touches fd).keepsTransaction)
    (fun fd s f hf => ?_) (fun fd s kind names => ?_)
    (fun fd _ _ hc _ _ => congrArg (Option.map _) (congrFun hc fd)) fun fd s => ?_
  · refine keepsTransaction_modifyClient s fd fun c => ?_
    simp only [Client.transaction,(hf c).inMulti,(hf c).multiError,(hf c).multiQueue]
  · refine keepsTransaction_modifyClient s fd fun c => ?_
    cases kind <;> rfl
  · exact keepsTransaction_composes.trans (unwatchAllKeys_keepsTransaction s fd)
      (keepsTransaction_modifyClient _ fd fun _ => rfl)

theorem queueCalls_rest {fr : Frame} (argvs : List (List Bytes)) : ∀ {s : Server},
    (∀ argv∈argvs,Queueable argv) →
    ∀ call∈queueCalls fr argvs s,¬call.spec.handler.Transactional := by
  induction argvs with
  | nil => exact fun _ call hcall => by cases hcall
  | cons argv rest ih =>
    intro s hqueue call hcall
    obtain ⟨spec,hspec,hrest,-⟩ := (hqueue argv List.mem_cons_self).spec
    unfold queueCalls at hcall
    rw [hspec] at hcall
    rcases List.mem_cons.mp hcall with rfl|hcall
    · exact hrest
    · split at hcall
      · exact ih (fun a ha => hqueue a (List.mem_cons_of_mem _ ha)) call hcall
      · cases hcall

theorem keepsTransaction_calls :
    KeptByCalls KeepsTransaction fun _ call => ¬call.spec.handler.Transactional where
  toComposes := keepsTransaction_composes
  handler fr call hrest := Handler.rest_keeps keepsTransaction_rest hrest call.argv fr _
  enter fd s _ := keepsTransaction_modifyClient { s with executing := some fd } fd fun _ => rfl
  leave _ _ _ := rfl
  write fd s protover r := by
    unfold write
    split
    · rfl
    · exact keepsTransaction_modifyClient s fd fun _ => rfl

end Run

end Server

/-! ## What a connection has seen of its transaction -/

inductive Verdict where
  | refused (spec : Option CommandSpec)
  | queued
  | called (spec : CommandSpec)
deriving DecidableEq

structure Transaction where
  queued : List (List Bytes)
  refused : Bool
deriving DecidableEq

namespace Transaction

def fields : Option Transaction → Bool×Bool×List (List Bytes)
  | none => (false,false,[])
  | some t => (true,t.refused,t.queued)

def next (argv : List Bytes) : Option Transaction → Verdict → Option Transaction
  | none,.called spec => if spec.handler=.multi then some ⟨[],false⟩ else none
  | none,_ => none
  | some t,.refused spec =>
    if spec.any (·.handler==.exec) then none else some { t with refused := true }
  | some t,.queued => some { t with queued := t.queued++[argv] }
  | some t,.called spec =>
    if spec.handler=.exec ∨ spec.handler=.discard ∨ spec.handler=.reset then none else some t

theorem fields_none {c : Client} (h : c.transaction=fields none) :
    c.inMulti=false ∧ c.multiError=false ∧ c.multiQueue=[] := by
  simpa [Client.transaction,fields] using h

theorem fields_some {c : Client} {t : Transaction} (h : c.transaction=fields (some t)) :
    c.inMulti=true ∧ c.multiError=t.refused ∧ c.multiQueue=t.queued := by
  simpa [Client.transaction,fields] using h

end Transaction

namespace Server

def verdict (s : Server) (fd : ℕ) (argv : List Bytes) : Verdict :=
  match lookupCommand (arg argv 0) with
  | none => .refused none
  | some spec =>
    if (checkCommand s.config (s.clientAt fd) spec argv).isSome then .refused (some spec)
    else if (s.clientAt fd).inMulti ∧ isTransactionControl spec.name=false then .queued
    else .called spec

theorem flushSelf_transaction (s : Server) (fd : ℕ) : KeepsTransaction fd s (s.flushSelf fd) :=
  keepsTransaction_modifyClient { s with selfPending := [] } fd fun _ => rfl

theorem discardTransaction_transaction (s : Server) (fd : ℕ) :
    ((s.discardTransaction fd).clients fd).map Client.transaction=
      (s.clients fd).map fun _ => (false,false,[]) := by
  unfold discardTransaction
  rw [unwatchAllKeys_self,modifyClient_self,Option.map_map,Option.map_map]
  rfl

theorem enter_self {s : Server} {fd : ℕ} {c : Client} (hc : s.clients fd=some c)
    (name : Bytes) :
    (s.enter fd name).clients fd=some { c with lastCommand := name } := by
  unfold enter
  rw [modifyClient_self]
  dsimp only
  rw [hc]
  rfl

structure Follows (fd : ℕ) (t : Option Transaction) (s : Server) : Prop where
  absent : s.clients fd=none → t=none
  present : ∀ c,s.clients fd=some c → c.transaction=Transaction.fields t
  queueable : ∀ q∈t,∀ argv∈q.queued,Queueable argv

theorem Follows.touched {s s' : Server} {fd : ℕ} {t : Option Transaction} (h : Follows fd t s)
    (htouch : Touches fd s s') : Follows fd t s' := by
  have hkeeps := htouch.keepsTransaction
  unfold KeepsTransaction at hkeeps
  refine ⟨fun hnone => ?_,fun c' hc' => ?_,h.queueable⟩
  · rw [hnone,eq_comm,Option.map_none,Option.map_eq_none_iff] at hkeeps
    exact h.absent hkeeps
  · rw [hc',eq_comm,Option.map_some,Option.map_eq_some_iff] at hkeeps
    obtain ⟨c,hc,heq⟩ := hkeeps
    rw [←heq]
    exact h.present c hc

section Run

variable [Platform]

inductive Dispatched (s : Server) (now : ℤ) (fd : ℕ) (argv : List Bytes) : Server → Prop where
  | refused (spec : Option CommandSpec) (r : Refusal) (h : s.verdict fd argv=.refused spec)
      (hcalls : s.requestCalls now fd argv=[]) :
      Dispatched s now fd argv (s.reject fd (s.clientAt fd).protover spec r)
  | queued (h : s.verdict fd argv=.queued) (hqueue : Queueable argv)
      (hmulti : (s.clientAt fd).inMulti=true) (hcalls : s.requestCalls now fd argv=[]) :
      Dispatched s now fd argv
        ((s.modifyClient fd fun c => { c with multiQueue := c.multiQueue++[argv] }).write fd
          (s.clientAt fd).protover (.token (.simpleString (ascii "QUEUED"))))
  | called (spec : CommandSpec) (h : s.verdict fd argv=.called spec)
      (hspec : lookupCommand (arg argv 0)=some spec)
      (hcalls : (s.clients fd).isNone=false → spec.handler=.exec → s.requestCalls now fd argv=
        (s.enter fd spec.name).execCalls ⟨now,fd,(s.clientAt fd).protover⟩) :
      Dispatched s now fd argv
        ((s.perform ⟨now,fd,(s.clientAt fd).protover⟩ spec argv).flushSelf fd)

theorem dispatched (s : Server) (now : ℤ) (fd : ℕ) (argv : List Bytes) :
    Dispatched s now fd argv (s.dispatch now fd argv) := by
  unfold dispatch
  dsimp only
  cases hspec : lookupCommand (arg argv 0) with
  | none => exact .refused none _ (by simp [verdict,hspec]) (by simp [requestCalls,hspec])
  | some spec =>
    dsimp only
    cases hcheck : checkCommand s.config (s.clientAt fd) spec argv with
    | some r =>
      exact .refused (some spec) _ (by simp [verdict,hspec,hcheck])
        (by simp [requestCalls,hspec,hcheck])
    | none =>
      dsimp only
      unfold accepted
      by_cases hqueue : (s.clientAt fd).inMulti ∧ isTransactionControl spec.name=false
      · rw [if_pos hqueue]
        refine .queued (by simp [verdict,hspec,hcheck,hqueue]) ⟨spec,hspec,hqueue.2⟩ hqueue.1 ?_
        simp [requestCalls,hspec,hcheck,acceptedCalls,hqueue]
      · rw [if_neg hqueue]
        refine .called spec ?_ hspec fun hpresent hexec => ?_
        · unfold verdict
          rw [hspec]
          dsimp only
          rw [hcheck,if_neg (by simp),if_neg hqueue]
        · unfold requestCalls
          rw [hpresent,if_neg (by simp),hspec]
          dsimp only
          rw [hcheck,if_neg (by simp)]
          unfold acceptedCalls
          rw [if_neg hqueue,if_pos hexec]

def observe (fd : ℕ) (s : Server) (t : Option Transaction) (step : ServerStep) :
    Option Transaction :=
  if ((s.step step).clients fd).isNone then none
  else if s.alive=false then t
  else
    match step with
    | .request _ other argv => if other=fd then Transaction.next argv t (s.verdict fd argv) else t
    | _ => t

def transactionOf (fd : ℕ) : List ServerStep → Server → Option Transaction → Option Transaction
  | [],_,t => t
  | step::rest,s,t => transactionOf fd rest (s.step step) (s.observe fd t step)

theorem write_transaction (s : Server) (fd protover : ℕ) (r : Response) :
    KeepsTransaction fd s (s.write fd protover r) := keepsTransaction_calls.write fd s protover r

variable {s : Server}

theorem reject_transaction {fd : ℕ} {c : Client} (hc : s.clients fd=some c)
    (protover : ℕ) (spec : Option CommandSpec) (r : Refusal) :
    ((s.reject fd protover spec r).clients fd).map Client.transaction=
      some (if spec.any (·.handler==.exec) then (false,false,[])
        else (c.inMulti,c.multiError || c.inMulti,c.multiQueue)) := by
  unfold reject
  dsimp only
  split
  · rw [write_transaction,discardTransaction_transaction,modifyClient_self,hc]
    rfl
  · rw [write_transaction,modifyClient_self,hc]
    rfl

theorem perform_transaction {fr : Frame} {spec : CommandSpec} {argv : List Bytes}
    (hrest : ¬spec.handler.Transactional) (hexec : spec.handler≠.exec) :
    KeepsTransaction fr.fd s (s.perform fr spec argv) := by
  unfold perform
  rw [if_neg hexec]
  exact keepsTransaction_composes.trans (keepsTransaction_calls.call hrest)
    (write_transaction _ fr.fd fr.protover _)

theorem perform_transaction_of {fr : Frame} {spec : CommandSpec} {argv : List Bytes}
    {handler : Handler} (hspec : spec.handler=handler) (hexec : handler≠.exec) :
    ((s.perform fr spec argv).clients fr.fd).map Client.transaction=
      ((handler.run argv fr (s.enter fr.fd spec.name)).2.clients fr.fd).map Client.transaction := by
  unfold perform
  rw [hspec,if_neg hexec]
  dsimp only
  rw [write_transaction]
  unfold callCommand
  rw [hspec]
  rfl

theorem exec_transaction {fr : Frame} {c : Client} (hc : s.clients fr.fd=some c)
    (hqueue : ∀ argv∈c.multiQueue,Queueable argv) :
    ((s.exec fr).clients fr.fd).map Client.transaction=
      some (if c.inMulti then (false,false,[]) else c.transaction) := by
  have hat : s.clientAt fr.fd=c := by
    rw [clientAt,hc]
    rfl
  have hdiscard : ∀ r,(((s.discardTransaction fr.fd).write fr.fd fr.protover r).clients fr.fd).map
      Client.transaction=some (false,false,[]) := by
    intro r
    rw [write_transaction,discardTransaction_transaction,hc]
    rfl
  unfold exec
  rw [hat]
  dsimp only
  split
  · rename_i hmulti
    rw [write_transaction,hc,hmulti]
    rfl
  rename_i hmulti
  simp only [Bool.not_eq_false] at hmulti
  rw [hmulti,if_pos rfl]
  split
  · exact hdiscard _
  split
  · exact hdiscard _
  · refine Eq.trans ?_ (hdiscard (.token (.arrayHeader c.multiQueue.length)))
    exact keepsTransaction_calls.queue _ (queueCalls_rest _ hqueue)

theorem transactional_transaction {fr : Frame} {c : Client}
    (hc : s.clients fr.fd=some c) {handler : Handler} (h : handler.Transactional)
    (argv : List Bytes) :
    ((handler.run argv fr s).2.clients fr.fd).map Client.transaction=
      some (if handler=.multi ∧ c.inMulti=false then (true,c.multiError,c.multiQueue)
        else if handler=.reset ∨ (handler=.discard ∧ c.inMulti=true) then (false,false,[])
        else c.transaction) := by
  have hat : s.clientAt fr.fd=c := by
    rw [clientAt,hc]
    rfl
  have hself : (s.clients fr.fd).map Client.transaction=some c.transaction := by
    rw [hc]
    rfl
  cases handler with
  | reset =>
    have hclear : ((s.clearSubscriptions fr.fd).clients fr.fd).isSome=true := by
      unfold clearSubscriptions
      rw [hc]
      dsimp only
      rw [modifyClient_self]
      dsimp only
      rw [hc]
      rfl
    obtain ⟨c',hc'⟩ := Option.isSome_iff_exists.mp hclear
    change (((((s.clearSubscriptions fr.fd).discardTransaction fr.fd).modifyClient fr.fd _).clients
      fr.fd).map Client.transaction)=_
    refine Eq.trans (modifyClient_map (fun c => ?_) _ fr.fd fr.fd) ?_
    · rfl
    · rw [discardTransaction_transaction,hc']
      simp
  | multi =>
    change ((Commands.multi argv fr s).2.clients fr.fd).map Client.transaction=_
    unfold Commands.multi
    simp only [Act.client_bind,hat]
    by_cases hmulti : c.inMulti=true
    · rw [if_pos hmulti,if_neg (by simp [hmulti]),if_neg (by simp)]
      exact hself
    · rw [if_neg hmulti,if_pos (by simpa using hmulti)]
      rw [Act.modifyClient_bind]
      change ((s.modifyClient fr.fd _).clients fr.fd).map Client.transaction=_
      rw [modifyClient_self,hc]
      rfl
  | discard =>
    change ((Commands.discard argv fr s).2.clients fr.fd).map Client.transaction=_
    unfold Commands.discard
    simp only [Act.frame_bind,Act.client_bind,hat]
    cases hmulti : c.inMulti with
    | false =>
      rw [if_pos (by rfl)]
      simp only [reduceCtorEq,false_and,and_false,or_false,if_false]
      exact hself
    | true =>
      simp only [Bool.not_true,Bool.false_eq_true,if_false]
      change ((s.discardTransaction fr.fd).clients fr.fd).map Client.transaction=_
      rw [discardTransaction_transaction,hc]
      simp
  | watch =>
    rw [if_neg (by simp),if_neg (by simp),←hself]
    change ((Commands.watch argv fr s).2.clients fr.fd).map Client.transaction=_
    unfold Commands.watch
    simp only [Act.frame_bind,Act.client_bind,hat]
    split
    · rfl
    · exact keepsTransaction_composes.foldl
        (fun s key => watchKey_keepsTransaction s fr.fd fr.now key) (argv.drop 1) s
  | data d => cases h
  | _ => cases h

theorem perform_follows {s : Server} {fr : Frame} {spec : CommandSpec} {argv : List Bytes}
    {c : Client} {t : Option Transaction} (hc : s.clients fr.fd=some c)
    (hfields : c.transaction=Transaction.fields t)
    (hqueue : ∀ q∈t,∀ argv∈q.queued,Queueable argv) :
    ((s.perform fr spec argv).clients fr.fd).map Client.transaction=
      some (Transaction.fields (Transaction.next argv t (.called spec))) := by
  have henter := enter_self hc spec.name
  by_cases hexec : spec.handler=.exec
  · unfold perform
    rw [if_pos hexec]
    change (((s.enter fr.fd spec.name).exec fr).clients fr.fd).map Client.transaction=_
    cases t with
    | none =>
      obtain ⟨hm,he,hq⟩ := Transaction.fields_none hfields
      rw [exec_transaction henter (by simp [hq])]
      simp [Transaction.next,Transaction.fields,Client.transaction,hm,he,hq,hexec]
    | some q =>
      obtain ⟨hm,he,hq⟩ := Transaction.fields_some hfields
      rw [exec_transaction henter (by simpa [hq] using hqueue q rfl)]
      simp [Transaction.next,Transaction.fields,hm,hexec]
  by_cases hrest : spec.handler.Transactional
  · rw [perform_transaction_of rfl hexec,transactional_transaction henter hrest]
    cases t with
    | none =>
      obtain ⟨hm,he,hq⟩ := Transaction.fields_none hfields
      by_cases hmulti : spec.handler=.multi
      · simp [Transaction.next,Transaction.fields,hm,he,hq,hmulti]
      · simp [Transaction.next,Transaction.fields,Client.transaction,hm,he,hq,hmulti]
    | some q =>
      obtain ⟨hm,he,hq⟩ := Transaction.fields_some hfields
      by_cases hends : spec.handler=.discard ∨ spec.handler=.reset
      · rcases hends with h|h <;> simp [Transaction.next,Transaction.fields,hm,h]
      · simp only [not_or] at hends
        simp [Transaction.next,Transaction.fields,Client.transaction,hm,he,hq,hends,hexec]
  · have hmulti : spec.handler≠.multi := fun h => hrest (h ▸ trivial)
    have hdiscard : spec.handler≠.discard := fun h => hrest (h ▸ trivial)
    have hreset : spec.handler≠.reset := fun h => hrest (h ▸ trivial)
    rw [perform_transaction hrest hexec,hc,Option.map_some,hfields]
    cases t with
    | none => simp [Transaction.next,hmulti]
    | some q => simp [Transaction.next,hexec,hdiscard,hreset]

theorem dispatch_follows {s : Server} {now : ℤ} {fd : ℕ} {argv : List Bytes} {c : Client}
    {t : Option Transaction} (hc : s.clients fd=some c)
    (hfields : c.transaction=Transaction.fields t)
    (hqueue : ∀ q∈t,∀ argv∈q.queued,Queueable argv) :
    ((s.dispatch now fd argv).clients fd).map Client.transaction=
      some (Transaction.fields (Transaction.next argv t (s.verdict fd argv))) := by
  have hat : s.clientAt fd=c := by
    rw [clientAt,hc]
    rfl
  have hway := dispatched s now fd argv
  generalize s.dispatch now fd argv=s' at hway ⊢
  cases hway with
  | refused spec r hverdict _ =>
    rw [hverdict,reject_transaction hc]
    cases t with
    | none =>
      obtain ⟨hm,he,hq⟩ := Transaction.fields_none hfields
      simp [Transaction.next,Transaction.fields,hm,he,hq]
    | some q =>
      obtain ⟨hm,he,hq⟩ := Transaction.fields_some hfields
      by_cases hexec : spec.any (·.handler==.exec)=true
      · simp [Transaction.next,Transaction.fields,hexec]
      · simp [Transaction.next,Transaction.fields,hexec,hm,hq]
  | queued hverdict _ hmulti _ =>
    rw [hverdict,write_transaction,modifyClient_self,hc]
    rw [hat] at hmulti
    cases t with
    | none =>
      rw [(Transaction.fields_none hfields).1] at hmulti
      cases hmulti
    | some q =>
      obtain ⟨hm,he,hq⟩ := Transaction.fields_some hfields
      simp [Transaction.next,Transaction.fields,Client.transaction,hm,he,hq]
  | called spec hverdict hspec _ =>
    rw [hverdict,flushSelf_transaction]
    exact @perform_follows _ s ⟨now,fd,(s.clientAt fd).protover⟩ spec argv c t hc hfields hqueue

theorem next_queueable {s : Server} {now : ℤ} {fd : ℕ} {argv : List Bytes} {t : Option Transaction}
    (hqueue : ∀ q∈t,∀ argv∈q.queued,Queueable argv) :
    ∀ q∈Transaction.next argv t (s.verdict fd argv),∀ a∈q.queued,Queueable a := by
  intro q hq a ha
  cases t with
  | none =>
    cases hverdict : s.verdict fd argv with
    | called spec =>
      rw [hverdict] at hq
      simp only [Transaction.next] at hq
      split at hq
      · cases hq
        cases ha
      · cases hq
    | refused spec =>
      rw [hverdict] at hq
      cases hq
    | queued =>
      rw [hverdict] at hq
      cases hq
  | some t =>
    have hway := dispatched s now fd argv
    generalize s.dispatch now fd argv=s' at hway ⊢
    cases hway with
    | refused spec r hverdict _ =>
      rw [hverdict] at hq
      simp only [Transaction.next] at hq
      split at hq
      · cases hq
      · cases hq
        exact hqueue t rfl a ha
    | queued hverdict hargv _ _ =>
      rw [hverdict] at hq
      cases hq
      rcases List.mem_append.mp ha with ha|ha
      · exact hqueue t rfl a ha
      · rw [List.mem_singleton.mp ha]
        exact hargv
    | called spec hverdict _ _ =>
      rw [hverdict] at hq
      simp only [Transaction.next] at hq
      split at hq
      · cases hq
      · cases hq
        exact hqueue _ rfl a ha

theorem Follows.step {fd : ℕ} {t : Option Transaction} (h : Follows fd t s)
    (step : ServerStep) : Follows fd (s.observe fd t step) (s.step step) := by
  by_cases hgone : ((s.step step).clients fd).isNone=true
  · have hnone : (s.step step).clients fd=none := Option.isNone_iff_eq_none.mp hgone
    unfold observe
    rw [if_pos hgone]
    refine ⟨fun _ => rfl,fun c hc => ?_,nofun⟩
    rw [hnone] at hc
    cases hc
  by_cases hactor : step.actor=some fd
  swap
  · have hsame : s.observe fd t step=t := by
      unfold observe
      rw [if_neg hgone]
      split
      · rfl
      · split
        · exact if_neg fun heq => hactor (congrArg some heq)
        · rfl
    rw [hsame]
    exact h.touched (step_touches hactor)
  by_cases halive : s.alive=false
  · unfold observe
    rw [if_neg hgone,if_pos halive]
    unfold Server.step
    rw [if_pos halive]
    exact h
  cases step with
  | accept now other addr =>
    cases hactor
    unfold observe
    rw [if_neg hgone,if_neg halive]
    unfold Server.step at hgone ⊢
    rw [if_neg halive] at hgone ⊢
    dsimp only at hgone ⊢
    unfold accept at hgone ⊢
    split
    · exact ⟨h.absent,h.present,h.queueable⟩
    split
    · exact h
    · rename_i hnew
      have hnone : s.clients fd=none := by simpa using hnew
      rw [h.absent hnone]
      refine ⟨fun _ => rfl,fun c hc => ?_,nofun⟩
      dsimp only at hc
      rw [Function.update_self] at hc
      cases hc
      rfl
  | close other =>
    cases hactor
    unfold Server.step at hgone
    rw [if_neg halive] at hgone
    exact absurd (Option.isNone_iff_eq_none.mpr (closeClient_self s fd)) hgone
  | cron now => cases hactor
  | childRename => cases hactor
  | childExit clean => cases hactor
  | request now other argv =>
    cases hactor
    have hstep : s.step (.request now fd argv)=s.request now fd argv := if_neg halive
    unfold observe
    rw [if_neg hgone,if_neg halive]
    dsimp only
    rw [if_pos rfl]
    rw [hstep] at hgone ⊢
    unfold request at hgone ⊢
    cases hc : s.clients fd with
    | none =>
      simp only [hc,Option.isNone_none,if_true,not_true] at hgone
    | some c =>
      simp only [hc,Option.isNone_some,Bool.false_eq_true,if_false] at hgone ⊢
      split
      · rename_i hclose
        rw [if_pos hclose,closeClient_self] at hgone
        exact absurd rfl hgone
      have hdispatch := @dispatch_follows _ s now fd argv c t hc (h.present c hc) h.queueable
      refine ⟨fun hnone => ?_,fun c' hc' => ?_,@next_queueable _ s now fd argv t h.queueable⟩
      · rw [hnone] at hdispatch
        cases hdispatch
      · rw [hc'] at hdispatch
        exact Option.some.inj hdispatch

theorem Follows.run {fd : ℕ} (steps : List ServerStep) : ∀ {s : Server} {t : Option Transaction},
    Follows fd t s → Follows fd (transactionOf fd steps s t) (s.run steps) := by
  induction steps with
  | nil => exact fun h => h
  | cons step rest ih => exact fun h => ih (h.step step)

theorem Started.follows (h : s.Started) (fd : ℕ) : Follows fd none s := by
  refine ⟨fun _ => rfl,fun c hc => ?_,nofun⟩
  rw [h.clients fd] at hc
  cases hc

end Run

end Server

end Mnemos

/-! ## Transactions over whole runs -/

open List

namespace Mnemos.Server

section Run

variable [Platform]

def Call.reply (fr : Frame) (call : Call) : Bytes :=
  (call.before.callCommand fr call.spec call.argv).1.encode fr.protover

def Call.after (fr : Frame) (call : Call) : Server :=
  let r := call.before.callCommand fr call.spec call.argv
  r.2.write fr.fd fr.protover r.1

def Consecutive (fr : Frame) : Server → List Call → Prop
  | _,[] => True
  | s,call::rest => call.before=s ∧ Consecutive fr (Call.after fr call) rest

section Output

variable {s : Server} {fr : Frame}

end Output

section Exec

variable {s : Server} {now : ℤ} {fd : ℕ} {argv : List Bytes} {spec : CommandSpec} {c : Client}

end Exec

/-- Requests that end a transaction for good: `EXEC` and `DISCARD` inside one, `RESET`, and an
`EXEC` that is refused. -/
def Ends (c : Client) : Verdict → Prop
  | .called spec => spec.handler=.reset ∨
      (c.inMulti=true ∧ (spec.handler=.exec ∨ spec.handler=.discard))
  | .refused spec => ∃ e∈spec,e.handler=.exec
  | .queued => False

section Idle

variable {s : Server} {now : ℤ} {fd : ℕ} {argv : List Bytes} {c : Client}

end Idle

end Run

section Reference

open PlatformReference

attribute [local instance] platform

end Reference

end Mnemos.Server
