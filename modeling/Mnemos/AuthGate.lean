import Mnemos.Transactions

/-!
# The authentication gate

What a connection that has not given the password can do. Nine commands are
open to it.
-/

open List

namespace Mnemos

/-- A connection that has not authenticated, outside transactions and without subscriptions and
watches. -/
structure Client.Gated (c : Client) : Prop where
  authenticated : c.authenticated=false
  inMulti : c.inMulti=false
  channels : c.channels=[]
  patterns : c.patterns=[]
  shardChannels : c.shardChannels=[]
  watchedKeys : c.watchedKeys=[]

theorem Client.Gated.touched {c c' : Client} (h : c.Gated) (ht : c.Touched c') : c'.Gated := by
  have hwatched := ht.watched
  obtain ⟨o,d,w,rfl⟩ := ht.same
  rw [h.watchedKeys] at hwatched
  cases hwatched
  exact { h with watchedKeys := rfl }

namespace Server

def GatedAt (fd : ℕ) (s : Server) : Prop := ∀ c,s.clients fd=some c → c.Gated

/-- Nothing but the connection itself has changed. -/
structure Harmless (fd : ℕ) (s s' : Server) : Prop where
  keyspace : s'.keyspace=s.keyspace
  files : s'.files=s.files
  config : s'.config=s.config
  running : s'.running=s.running
  alive : s'.alive=s.alive
  others : ∀ other,other≠fd → s'.clients other=s.clients other

/-- Nothing but the connection has changed, and it is still behind the gate. -/
structure Shut (fd : ℕ) (s s' : Server) : Prop where
  harmless : Harmless fd s s'
  gated : s.config.requirepass≠[] → GatedAt fd s → GatedAt fd s'

section Shut

variable {fd : ℕ} {s t u : Server}

theorem Harmless.trans (h : Harmless fd s t) (h' : Harmless fd t u) : Harmless fd s u where
  keyspace := h'.keyspace.trans h.keyspace
  files := h'.files.trans h.files
  config := h'.config.trans h.config
  running := h'.running.trans h.running
  alive := h'.alive.trans h.alive
  others other hne := (h'.others other hne).trans (h.others other hne)

theorem shut_composes : Act.Composes Shut where
  refl _ _ := ⟨⟨rfl,rfl,rfl,rfl,rfl,fun _ _ => rfl⟩,fun _ h => h⟩
  trans h h' := by
    refine ⟨h.harmless.trans h'.harmless,fun hp hg => h'.gated ?_ (h.gated hp hg)⟩
    rw [h.harmless.config]
    exact hp

theorem shut_modifyClient {f : Client → Client} (hf : ∀ c : Client,c.Gated → (f c).Gated) :
    Shut fd s (s.modifyClient fd f) where
  harmless := ⟨rfl,rfl,rfl,rfl,rfl,fun _ hne => modifyClient_of_ne s hne f⟩
  gated _ hg c' hc' := by
    rw [modifyClient_self,Option.map_eq_some_iff] at hc'
    obtain ⟨c,hc,rfl⟩ := hc'
    exact hf c (hg c hc)

theorem shut_registries {channels shardChannels patterns : Registry} {watched : ℕ → Registry} :
    Shut fd s { s with channels := channels, shardChannels := shardChannels, patterns := patterns,
                       watched := watched } where
  harmless := ⟨rfl,rfl,rfl,rfl,rfl,fun _ _ => rfl⟩
  gated _ hg := hg

theorem write_shut [FloatText] {protover : ℕ} {r : Response} (hr : r≠.terminated) :
    Shut fd s (s.write fd protover r) := by
  unfold write
  split
  · exact absurd rfl hr
  · exact shut_modifyClient fun c hc => { hc with }

theorem unwatchAllKeys_shut : Shut fd s (s.unwatchAllKeys fd) := by
  unfold unwatchAllKeys
  split
  · exact shut_composes.refl fd s
  · refine shut_composes.trans shut_registries (shut_modifyClient fun c hc => ?_)
    exact { hc with watchedKeys := rfl }

theorem discardTransaction_shut : Shut fd s (s.discardTransaction fd) := by
  refine shut_composes.trans (shut_modifyClient fun c hc => ?_) unwatchAllKeys_shut
  exact { hc with inMulti := rfl }

theorem clearSubscriptions_shut : Shut fd s (s.clearSubscriptions fd) := by
  unfold clearSubscriptions
  split
  · exact shut_composes.refl fd s
  · refine shut_composes.trans shut_registries (shut_modifyClient fun c hc => ?_)
    exact { hc with channels := rfl, patterns := rfl, shardChannels := rfl }

theorem closeClient_shut : Shut fd s (s.closeClient fd) := by
  refine ⟨?_,fun _ _ c hc => ?_⟩
  · unfold closeClient
    split
    · exact (shut_composes.refl fd s).harmless
    · refine (shut_composes.trans clearSubscriptions_shut unwatchAllKeys_shut).harmless.trans ?_
      exact ⟨rfl,rfl,rfl,rfl,rfl,fun _ hne => Function.update_of_ne hne ..⟩
  · rw [closeClient_self] at hc
    cases hc

theorem flushSelf_shut : Shut fd s (s.flushSelf fd) := by
  refine shut_composes.trans (t := { s with selfPending := [] }) ?_ (shut_modifyClient fun c hc => ?_)
  · exact ⟨⟨rfl,rfl,rfl,rfl,rfl,fun _ _ => rfl⟩,fun _ h => h⟩
  · exact { hc with }

theorem reject_shut [FloatText] (protover : ℕ) (spec : Option CommandSpec) (r : Refusal) :
    Shut fd s (s.reject fd protover spec r) := by
  unfold reject
  dsimp only
  refine shut_composes.trans (t := s.modifyClient fd fun c =>
    { c with multiError := c.multiError || c.inMulti }) (shut_modifyClient fun c hc => ?_) ?_
  · exact { hc with }
  split
  · refine shut_composes.trans discardTransaction_shut (write_shut ?_)
    intro h
    cases h
  · refine write_shut ?_
    intro h
    cases h

end Shut

section Handlers

open Act Commands

variable (argv : List Bytes)

theorem ping_shut : Keeps Shut (ping argv) := by
  unfold ping
  refine shut_composes.client fun c => ?_
  repeat' split
  all_goals exact shut_composes.pure _

theorem quit_shut : Keeps Shut (quit argv) := by
  refine shut_composes.bind (fun fr s => shut_modifyClient fun c hc => ?_) fun _ =>
    shut_composes.pure _
  exact { hc with }

theorem clientCommand_shut : Keeps Shut (clientCommand argv) := by
  have hname : Keeps Shut (setClientName argv) := by
    unfold setClientName
    repeat' split
    · exact shut_composes.pure _
    · exact shut_composes.pure _
    · refine shut_composes.bind (fun fr s => shut_modifyClient fun c hc => ?_) fun _ =>
        shut_composes.pure _
      exact { hc with }
  unfold clientCommand
  refine shut_composes.frame fun fr => shut_composes.client fun c => shut_composes.server fun s => ?_
  dsimp only
  repeat' split
  all_goals first
    | exact shut_composes.pure _
    | exact hname

theorem info_shut : Keeps Shut (info argv) :=
  shut_composes.frame fun _ => shut_composes.server fun _ => shut_composes.pure _

theorem reset_state (fr : Frame) (s : Server) : (reset argv fr s).2=
    ((s.clearSubscriptions fr.fd).discardTransaction fr.fd).modifyClient fr.fd fun c =>
      { c with
        dbIndex := 0
        protover := 2
        name := []
        authenticated := decide (((s.clearSubscriptions fr.fd).discardTransaction
          fr.fd).config.requirepass=[]) } := rfl

theorem reset_shut : Keeps Shut (reset argv) := by
  intro fr s
  have hcleared : Shut fr.fd s ((s.clearSubscriptions fr.fd).discardTransaction fr.fd) :=
    shut_composes.trans clearSubscriptions_shut discardTransaction_shut
  rw [reset_state]
  refine shut_composes.trans hcleared ⟨?_,fun hp hg c' hc' => ?_⟩
  · exact ⟨rfl,rfl,rfl,rfl,rfl,fun _ hne => modifyClient_of_ne _ hne _⟩
  · rw [modifyClient_self,Option.map_eq_some_iff] at hc'
    obtain ⟨c,hc,rfl⟩ := hc'
    have hgated := hg c hc
    exact { hgated with authenticated := decide_eq_false hp }

variable {argv}

theorem arg_mem_drop {i : ℕ} (hi : 1 ≤ i) (hlt : i < argv.length) : arg argv i∈argv.drop 1 := by
  obtain ⟨j,rfl⟩ := Nat.exists_eq_add_of_le' hi
  have hj : j < (argv.drop 1).length := by
    rw [length_drop]
    omega
  have h : arg argv (j+1)=(argv.drop 1)[j] := by
    rw [arg,getD_eq_getElem _ _ hlt,getElem_drop]
    congr 1
    omega
  rw [h]
  exact getElem_mem hj

theorem auth_shut {fr : Frame} {s : Server} (hwords : s.config.requirepass∉argv.drop 1)
    (hlength : 2 ≤ argv.length) : Shut fr.fd s (auth argv fr s).2 := by
  have hlast : arg argv (argv.length-1)≠s.config.requirepass := by
    intro h
    rw [←h] at hwords
    exact hwords (arg_mem_drop (by omega) (by omega))
  unfold auth
  simp only [server_bind]
  refine Act.ite_related (fun _ => shut_composes.refl fr.fd s) fun _ => ?_
  refine Act.ite_related (fun _ => shut_composes.refl fr.fd s) fun _ => ?_
  exact Act.ite_related (fun h => absurd h hlast) fun _ => shut_composes.refl fr.fd s

theorem helloLoop_authenticated {requirepass : Bytes} (hpass : requirepass≠[]) {used : ℕ}
    {words : List Bytes} {c : Client} (hwords : requirepass∉words) :
    (helloLoop requirepass used words c).2.authenticated=c.authenticated := by
  fun_induction helloLoop requirepass used words c <;> simp_all
  rename_i word rest c hauth hgiven
  have hmem : rest[1]?.getD []∈rest := by
    rw [getElem?_eq_getElem (by omega)]
    exact getElem_mem _
  rw [hgiven] at hmem
  exact absurd hmem hwords.2

theorem hello_shut {fr : Frame} {s : Server} (hpass : s.config.requirepass≠[])
    (hgated : GatedAt fr.fd s) (hwords : s.config.requirepass∉argv.drop 1) :
    Shut fr.fd s (hello argv fr s).2 := by
  have hclient : (s.clientAt fr.fd).authenticated=false := by
    unfold clientAt
    cases hc : s.clients fr.fd with
    | none => rfl
    | some c => exact (hgated c hc).authenticated
  have hloop : (helloLoop s.config.requirepass 0 (argv.drop 2) (s.clientAt fr.fd)).2.authenticated=
      false := by
    rw [helloLoop_authenticated hpass fun h => hwords (drop_subset_drop_left argv (by omega) h)]
    exact hclient
  unfold hello
  simp only [client_bind,server_bind]
  cases helloVersion argv (s.clientAt fr.fd).protover with
  | none => exact shut_composes.refl fr.fd s
  | some requested =>
    simp only [modifyClient_bind]
    generalize helloLoop s.config.requirepass 0 (argv.drop 2) (s.clientAt fr.fd)=r at hloop
    have hset : Shut fr.fd s (s.modifyClient fr.fd fun c =>
        { c with authenticated := r.2.authenticated, name := r.2.name }) :=
      shut_modifyClient fun c hc =>
        { hc with authenticated := hloop }
    refine shut_composes.trans hset ?_
    cases r.1 with
    | some refusal => exact shut_composes.refl fr.fd _
    | none =>
      dsimp only [helloFinish]
      rw [if_pos ⟨hpass,hloop⟩]
      exact shut_composes.refl fr.fd _

theorem helloLoop_refusal {requirepass : Bytes} {used : ℕ} {words : List Bytes} {c : Client}
    {r : Response} (h : (helloLoop requirepass used words c).1=some r) : r.isError=true := by
  fun_induction helloLoop requirepass used words c <;> simp_all <;> subst h <;> rfl

variable (argv)

theorem ping_answers : Returns (·≠.terminated) (ping argv) := by
  unfold ping
  refine .bind fun c => ?_
  repeat' split
  all_goals exact .pure nofun

theorem hello_answers : Returns (·≠.terminated) (hello argv) := by
  unfold hello
  refine .bind fun c => .bind fun s => ?_
  split
  · exact .pure nofun
  refine .bind fun _ => ?_
  split
  · rename_i refusal hrefusal
    refine .pure fun h => ?_
    have herror := helloLoop_refusal hrefusal
    rw [h] at herror
    cases herror
  · unfold helloFinish
    split
    · exact .pure nofun
    · exact .bind fun _ => .pure nofun

theorem auth_answers : Returns (·≠.terminated) (auth argv) := by
  unfold auth
  refine .bind fun s => ?_
  repeat' split
  · exact .pure nofun
  · exact .pure nofun
  · exact .bind fun _ => .pure nofun
  · exact .pure nofun

theorem clientCommand_answers : Returns (·≠.terminated) (clientCommand argv) := by
  have hname : Returns (·≠.terminated) (setClientName argv) := by
    unfold setClientName
    repeat' split
    · exact .pure nofun
    · exact .pure nofun
    · exact .bind fun _ => .pure nofun
  unfold clientCommand
  refine .bind fun fr => .bind fun c => .bind fun s => ?_
  dsimp only
  repeat' split
  all_goals first
    | exact .pure nofun
    | exact hname

theorem command_answers : Commands.command argv≠.terminated := by
  unfold Commands.command
  dsimp only
  repeat' split
  all_goals exact nofun

end Handlers

section Table

theorem open_handlers : ∀ spec∈table,spec.has Flags.kNoAuth=true →
    spec.handler∈[.ping,.hello,.auth,.quit,.reset,.client,.info,.command,.shutdown] := by
  decide +kernel

theorem auth_arity : ∀ spec∈table,spec.handler=.auth → spec.arity=-2 := by
  decide +kernel

end Table

/-- The password is among the arguments of `AUTH` or `HELLO`. -/
def Presents (password : Bytes) (argv : List Bytes) : Prop :=
  ∃ spec∈lookupCommand (arg argv 0),(spec.handler=.auth ∨ spec.handler=.hello) ∧
    password∈argv.drop 1

instance (password : Bytes) (argv : List Bytes) : Decidable (Presents password argv) :=
  inferInstanceAs (Decidable (∃ spec∈_,_))

def abortsShutdown (argv : List Bytes) : Prop := 1 < argv.length ∧ isWord (arg argv 1) "ABORT"=true

instance (argv : List Bytes) : Decidable (abortsShutdown argv) :=
  inferInstanceAs (Decidable (_ ∧ _))

def Stops (argv : List Bytes) : Prop :=
  ∃ spec∈lookupCommand (arg argv 0),spec.handler=.shutdown ∧ ¬abortsShutdown argv

instance (argv : List Bytes) : Decidable (Stops argv) :=
  inferInstanceAs (Decidable (∃ spec∈_,_))

theorem checkCommand_open {config : Config} {c : Client} {spec : CommandSpec}
    {argv : List Bytes}
    (h : checkCommand config c spec argv=none) (hpass : config.requirepass≠[])
    (hc : c.authenticated=false) :
    arityOk spec argv.length=true ∧ spec.has Flags.kNoAuth=true := by
  unfold checkCommand at h
  split at h
  · cases h
  rename_i harity
  split at h
  · cases h
  rename_i hopen
  simp_all

theorem gated_accept {fd : ℕ} {s : Server} {now : ℤ} {addr : Bytes} (hpass : s.config.requirepass≠[])
    (hnew : s.clients fd=none) : GatedAt fd (s.accept now fd addr) := by
  intro c hc
  unfold accept at hc
  split at hc
  · rw [hnew] at hc
    cases hc
  split at hc
  · rw [hnew] at hc
    cases hc
  · have hself : some (s.newClient now addr)=some c :=
      (Function.update_self fd (some (s.newClient now addr)) s.clients).symm.trans hc
    cases hself
    exact ⟨decide_eq_false hpass,rfl,rfl,rfl,rfl,rfl⟩

section Requests

variable [Platform] {fd : ℕ} {s : Server} {argv : List Bytes}

/-- A command that is open before authentication, without the password and without stopping the
server, keeps the gate shut. -/
theorem open_shut {fr : Frame} {spec : CommandSpec} (hspec : lookupCommand (arg argv 0)=some spec)
    (hopen : spec.has Flags.kNoAuth=true) (harity : arityOk spec argv.length=true)
    (hpass : s.config.requirepass≠[]) (hgated : GatedAt fr.fd s)
    (hpresents : ¬Presents s.config.requirepass argv) (hstops : ¬Stops argv) :
    Shut fr.fd s (spec.handler.run argv fr s).2 ∧ (spec.handler.run argv fr s).1≠.terminated := by
  have hmem := lookupCommand_mem hspec
  have hhandler := open_handlers spec hmem hopen
  have hwords : spec.handler=.auth ∨ spec.handler=.hello → s.config.requirepass∉argv.drop 1 :=
    fun hh hin => hpresents ⟨spec,hspec,hh,hin⟩
  simp only [mem_cons,not_mem_nil,or_false] at hhandler
  rcases hhandler with h|h|h|h|h|h|h|h|h
  · rw [h]
    exact ⟨ping_shut argv fr s,ping_answers argv fr s⟩
  · rw [h]
    exact ⟨hello_shut hpass hgated (hwords (.inr h)),hello_answers argv fr s⟩
  · have hlength : 2 ≤ argv.length := by
      rw [arityOk,auth_arity spec hmem h] at harity
      simp at harity
      omega
    rw [h]
    exact ⟨auth_shut (hwords (.inl h)) hlength,auth_answers argv fr s⟩
  · rw [h]
    exact ⟨quit_shut argv fr s,nofun⟩
  · rw [h]
    exact ⟨reset_shut argv fr s,nofun⟩
  · rw [h]
    exact ⟨clientCommand_shut argv fr s,clientCommand_answers argv fr s⟩
  · rw [h]
    exact ⟨info_shut argv fr s,nofun⟩
  · rw [h]
    exact ⟨shut_composes.refl fr.fd s,command_answers argv⟩
  · have habort : abortsShutdown argv := by
      by_contra hno
      exact hstops ⟨spec,hspec,h,hno⟩
    have hrun : Handler.run .shutdown argv=pure (.err "ERR No shutdown in progress") :=
      if_pos habort
    rw [h,hrun]
    exact ⟨shut_composes.refl fr.fd s,nofun⟩

theorem accepted_shut {now : ℤ} {c : Client} {protover : ℕ} {spec : CommandSpec}
    (hspec : lookupCommand (arg argv 0)=some spec) (hclient : s.clients fd=some c)
    (hcheck : checkCommand s.config c spec argv=none) (hpass : s.config.requirepass≠[])
    (hgated : GatedAt fd s) (hpresents : ¬Presents s.config.requirepass argv)
    (hstops : ¬Stops argv) : Shut fd s (s.accepted ⟨now,fd,protover⟩ spec argv) := by
  have hc := hgated c hclient
  obtain ⟨harity,hopen⟩ := checkCommand_open hcheck hpass hc.authenticated
  have hmulti : ¬((s.clientAt fd).inMulti=true ∧ isTransactionControl spec.name=false) := by
    rw [clientAt,hclient]
    exact fun h => by simp [hc.inMulti] at h
  have hexec : spec.handler≠.exec := by
    intro h
    have := open_handlers spec (lookupCommand_mem hspec) hopen
    rw [h] at this
    revert this
    decide
  have henter : Shut fd s (s.enter fd spec.name) := by
    refine shut_composes.trans (t := { s with executing := some fd }) ?_ ?_
    · exact ⟨⟨rfl,rfl,rfl,rfl,rfl,fun _ _ => rfl⟩,fun _ h => h⟩
    · exact shut_modifyClient fun c hc => { hc with }
  obtain ⟨hrun,hanswer⟩ := @open_shut _ (s.enter fd spec.name) argv ⟨now,fd,protover⟩ spec hspec
    hopen harity hpass (henter.gated hpass hgated) hpresents hstops
  unfold accepted
  rw [if_neg hmulti]
  unfold perform
  rw [if_neg hexec]
  have hleave : Shut fd s (s.callCommand ⟨now,fd,protover⟩ spec argv).2 := by
    refine shut_composes.trans henter (shut_composes.trans hrun ?_)
    exact ⟨⟨rfl,rfl,rfl,rfl,rfl,fun _ _ => rfl⟩,fun _ h => h⟩
  have hwrite : Shut fd (s.callCommand ⟨now,fd,protover⟩ spec argv).2
      ((s.callCommand ⟨now,fd,protover⟩ spec argv).2.write fd protover
        (s.callCommand ⟨now,fd,protover⟩ spec argv).1) := write_shut hanswer
  exact shut_composes.trans (shut_composes.trans hleave hwrite) flushSelf_shut

theorem request_shut (now : ℤ) (hpass : s.config.requirepass≠[]) (hgated : GatedAt fd s)
    (hpresents : ¬Presents s.config.requirepass argv) (hstops : ¬Stops argv) :
    Shut fd s (s.request now fd argv) := by
  unfold request
  cases hclient : s.clients fd with
  | none => exact shut_composes.refl fd s
  | some c =>
    have hat : s.clientAt fd=c := by
      rw [clientAt,hclient]
      rfl
    have hc := hgated c hclient
    have hdispatch : Shut fd s (s.dispatch now fd argv) := by
      unfold dispatch
      dsimp only
      rw [hat]
      cases hspec : lookupCommand (arg argv 0) with
      | none => exact reject_shut _ _ _
      | some spec =>
        dsimp only
        cases hcheck : checkCommand s.config c spec argv with
        | some r => exact reject_shut _ _ _
        | none =>
          dsimp only
          exact accepted_shut hspec hclient hcheck hpass hgated hpresents hstops
    simp only [Option.isNone_some,Bool.false_eq_true,if_false]
    split
    · exact shut_composes.trans hdispatch closeClient_shut
    · exact hdispatch

/-- What a step of a run may be for the connection: it does not give the password, does not stop
the server, and its descriptor is not given to another connection. -/
def Locked (fd : ℕ) (s : Server) : ServerStep → Prop
  | .request _ other argv => other=fd → s.config.requirepass≠[] ∧
      ¬Presents s.config.requirepass argv ∧ ¬Stops argv
  | .accept _ other _ => other≠fd
  | _ => True

/-- Every step of a run is such a step, at the server that it finds. -/
def LockedRun (fd : ℕ) : List ServerStep → Server → Prop
  | [],_ => True
  | step::rest,s => Locked fd s step ∧ LockedRun fd rest (s.step step)

theorem gated_step {step : ServerStep} (hgated : GatedAt fd s) (hlocked : Locked fd s step) :
    GatedAt fd (s.step step) := by
  by_cases hactor : step.actor=some fd
  · unfold Server.step
    split
    · exact hgated
    cases step with
    | accept now other addr =>
      cases hactor
      exact absurd rfl hlocked
    | request now other argv =>
      cases hactor
      obtain ⟨hpass,hpresents,hstops⟩ := hlocked rfl
      exact (request_shut now hpass hgated hpresents hstops).gated hpass hgated
    | close other =>
      cases hactor
      intro c hc
      rw [closeClient_self] at hc
      cases hc
    | cron now => cases hactor
    | childRename => cases hactor
    | childExit clean => cases hactor
  · intro c' hc'
    have htouch : Touches fd s (s.step step) := step_touches hactor
    unfold Touches at htouch
    rw [hc'] at htouch
    cases hc : s.clients fd with
    | none =>
      rw [hc] at htouch
      cases htouch
    | some c =>
      rw [hc] at htouch
      cases htouch with
      | some h => exact (hgated c hc).touched h

theorem gated_run (steps : List ServerStep) : ∀ {s : Server},GatedAt fd s → LockedRun fd steps s →
    GatedAt fd (s.run steps) := by
  induction steps with
  | nil => exact fun h _ => h
  | cons step rest ih => exact fun hgated hlocked => ih (gated_step hgated hlocked.1) hlocked.2

theorem LockedRun.split {before after : List ServerStep} : ∀ {s : Server},
    LockedRun fd (before++after) s → LockedRun fd before s ∧ LockedRun fd after (s.run before) := by
  induction before with
  | nil => exact fun h => ⟨trivial,h⟩
  | cons step rest ih =>
    intro s h
    obtain ⟨hrest,hafter⟩ := ih h.2
    exact ⟨⟨h.1,hrest⟩,hafter⟩

/-- **The gate**: as long as a connection that was accepted under a password does not present it
and does not send `SHUTDOWN`, none of its requests changes anything but the connection itself,
whatever others do in between. -/
theorem gate_holds {accepted : ℤ} {addr : Bytes} {steps : List ServerStep}
    (hpass : s.config.requirepass≠[]) (hnew : s.clients fd=none)
    (hlocked : LockedRun fd steps (s.accept accepted fd addr)) :
    ∀ before now argv after,steps=before++.request now fd argv::after →
      Harmless fd ((s.accept accepted fd addr).run before)
        (((s.accept accepted fd addr).run before).step (.request now fd argv)) := by
  intro before now argv after hsteps
  rw [hsteps] at hlocked
  obtain ⟨hbefore,hrest⟩ := hlocked.split
  have hgated := gated_run before (gated_accept hpass hnew) hbefore
  obtain ⟨hpass',hpresents,hstops⟩ := hrest.1 rfl
  unfold Server.step
  split
  · exact (shut_composes.refl fd _).harmless
  · exact (request_shut now hpass' hgated hpresents hstops).harmless

end Requests

section Reference

attribute [local instance] PlatformReference.platform

theorem gate_holds_set :
    let s := PlatformReference.serverWith (ascii "secret")
    s.config.requirepass≠[] ∧
    Harmless 7 ((s.accept 1000 7 []).run [.request 1000 7 [ascii "PING"]])
      (((s.accept 1000 7 []).run [.request 1000 7 [ascii "PING"]]).step
        (.request 1001 7 [ascii "SET",ascii "k",ascii "v"])) := by
  refine ⟨by decide,@gate_holds _ 7 _ 1000 [] [.request 1000 7 [ascii "PING"],
    .request 1001 7 [ascii "SET",ascii "k",ascii "v"]] (by decide) rfl ?_ [_] 1001 _ [] rfl⟩
  refine ⟨fun _ => ?_,fun _ => ?_,trivial⟩ <;> decide +kernel

/-- `SHUTDOWN` from a connection that has not authenticated stops the server, and `SHUTDOWN SAVE`
writes the file as well. -/
theorem shutdown_open :
    let s := (PlatformReference.serverWith (ascii "secret")).accept 1000 7 []
    (s.clientAt 7).authenticated=false ∧
    (s.step (.request 1000 7 [ascii "SHUTDOWN"])).running=false ∧
    (s.files (ascii "dump.rdb")).isSome=false ∧
    ((s.step (.request 1000 7 [ascii "SHUTDOWN",ascii "SAVE"])).files
      (ascii "dump.rdb")).isSome=true := by
  decide +kernel

end Reference

end Server

end Mnemos

/-! ## The protocol version of a connection -/

open List

namespace Mnemos

namespace Commands

inductive HelloOption
  | auth
  | setName (name : Bytes)
  deriving DecidableEq

def HelloOption.apply (c : Client) : HelloOption → Client
  | auth => { c with authenticated := true }
  | setName name => { c with name := name }

def HelloOption.name? : HelloOption → Option Bytes
  | auth => none
  | setName name => some name

def acceptedOptions (requirepass : Bytes) : List Bytes → List HelloOption
  | word::first::second::rest =>
    if isWord word "AUTH" then
      if requirepass=[] ∨ second=requirepass then .auth::acceptedOptions requirepass rest else []
    else if isWord word "SETNAME" then .setName first::acceptedOptions requirepass (second::rest)
    else []
  | [word,name] => if isWord word "SETNAME" then [.setName name] else []
  | _ => []

/-- The options that a `HELLO` accepts: none if it asks for an unknown version. -/
def helloOptions (requirepass : Bytes) (argv : List Bytes) : List HelloOption :=
  if (helloVersion argv 0).isNone then [] else acceptedOptions requirepass (argv.drop 2)

theorem helloLoop_applies (requirepass : Bytes) (words : List Bytes) (c : Client) :
    (helloLoop requirepass 0 words c).2=
      (acceptedOptions requirepass words).foldl HelloOption.apply c := by
  fun_induction acceptedOptions requirepass words generalizing c with
  | case1 word first second rest hauth hpass ih =>
    have hgiven : requirepass=[] ∨ (first::second::rest).getD 1 []=requirepass := hpass
    rw [helloLoop,if_pos ⟨hauth,by simp⟩,if_pos hgiven]
    exact ih _
  | case2 word first second rest hauth hpass =>
    have hgiven : ¬(requirepass=[] ∨ (first::second::rest).getD 1 []=requirepass) := hpass
    rw [helloLoop,if_pos ⟨hauth,by simp⟩,if_neg hgiven]
    rfl
  | case3 word first second rest hauth hname ih =>
    rw [helloLoop,if_neg (hauth ·.1),if_pos ⟨hname,by simp⟩]
    exact ih _
  | case4 word first second rest hauth hname =>
    rw [helloLoop,if_neg (hauth ·.1),if_neg (hname ·.1)]
    rfl
  | case5 word name hname => simp [helloLoop,hname,HelloOption.apply]
  | case6 word name hname => simp [helloLoop,hname]
  | case7 words hlong hpair =>
    match words with
    | [] => rfl
    | [word] => simp [helloLoop]
    | [word,name] => exact absurd rfl (hpair word name)
    | word::first::second::rest => exact absurd rfl (hlong word first second rest)

theorem foldl_apply (options : List HelloOption) (c : Client) :
    options.foldl HelloOption.apply c=
      { c with
        authenticated := c.authenticated || options.contains .auth
        name := ((options.filterMap HelloOption.name?).getLast?).getD c.name } := by
  induction options generalizing c with
  | nil => simp
  | cons option rest ih =>
    rw [foldl_cons,ih]
    cases option with
    | auth => simp [HelloOption.apply,HelloOption.name?]
    | setName name => simp [HelloOption.apply,HelloOption.name?,getLast?_cons]

theorem helloVersion_isNone (argv : List Bytes) (current : ℕ) :
    (helloVersion argv current).isNone=(helloVersion argv 0).isNone := by
  unfold helloVersion
  split <;> rfl

variable {argv : List Bytes} {fr : Frame} {s : Server} {c : Client}

theorem helloFinish_spec (requirepass : Bytes) (requested : ℕ) (known : Client)
    (hc : s.clients fr.fd=some c) :
    (helloFinish requirepass requested known fr s).2.clients fr.fd=
      some { c with protover :=
        if (helloFinish requirepass requested known fr s).1.isError then c.protover
        else requested } := by
  unfold helloFinish
  split
  · exact hc
  · have hclient := Server.modifyClient_self s fr.fd fun c => { c with protover := requested }
    rw [hc] at hclient
    exact hclient

theorem hello_client (hc : s.clients fr.fd=some c) :
    (hello argv fr s).2.clients fr.fd=
      some { (helloOptions s.config.requirepass argv).foldl HelloOption.apply c with
        protover := if (hello argv fr s).1.isError then c.protover
          else (helloVersion argv c.protover).getD c.protover } := by
  have hat : s.clientAt fr.fd=c := by
    unfold Server.clientAt
    rw [hc]
    rfl
  have hnone := helloVersion_isNone argv c.protover
  unfold hello helloOptions
  simp only [Act.client_bind,Act.server_bind,hat,←hnone]
  cases hversion : helloVersion argv c.protover with
  | none => exact hc
  | some requested =>
    simp only [Act.modifyClient_bind,Option.isNone_some,Bool.false_eq_true,if_false]
    have happly := helloLoop_applies s.config.requirepass (argv.drop 2) c
    have hclient := Server.modifyClient_self s fr.fd fun known => { known with
      authenticated := (helloLoop s.config.requirepass 0 (argv.drop 2) c).2.authenticated
      name := (helloLoop s.config.requirepass 0 (argv.drop 2) c).2.name }
    generalize acceptedOptions s.config.requirepass (argv.drop 2)=options at happly ⊢
    have hversion : (options.foldl HelloOption.apply c).protover=c.protover := by
      rw [foldl_apply]
    have hknown : (s.clients fr.fd).map (fun known => { known with
        authenticated := (helloLoop s.config.requirepass 0 (argv.drop 2) c).2.authenticated
        name := (helloLoop s.config.requirepass 0 (argv.drop 2) c).2.name })=
          some (options.foldl HelloOption.apply c) := by
      rw [hc,happly,foldl_apply]
      rfl
    rw [hknown] at hclient
    cases hrefusal : (helloLoop s.config.requirepass 0 (argv.drop 2) c).1 with
    | some refusal =>
      have herror := Server.helloLoop_refusal hrefusal
      refine hclient.trans ?_
      change _=some { options.foldl HelloOption.apply c with
        protover := if refusal.isError then c.protover else requested }
      rw [if_pos herror,←hversion]
    | none =>
      rw [←hversion]
      exact helloFinish_spec _ _ _ hclient

/-- An error of `HELLO` never changes the version, and it leaves the name and the authentication
exactly when the options accepted before it were in force already. -/
theorem hello_atomic_iff (hc : s.clients fr.fd=some c)
    (herror : (hello argv fr s).1.isError=true) :
    ∃ c',(hello argv fr s).2.clients fr.fd=some c' ∧ c'.protover=c.protover ∧
      (c'.name=c.name ∧ c'.authenticated=c.authenticated ↔
        let options := helloOptions s.config.requirepass argv
        (.auth∈options → c.authenticated=true) ∧
          ((options.filterMap HelloOption.name?).getLast?).getD c.name=c.name) := by
  have hclient := @hello_client argv fr s c hc
  rw [if_pos herror,foldl_apply] at hclient
  refine ⟨_,hclient,rfl,?_⟩
  dsimp only
  cases hknown : c.authenticated <;> simp [and_comm]

section Reference

open PlatformReference

attribute [local instance] platform

/-- A name and a word that is no option: the name stays. -/
theorem hello_keeps_name :
    (hello [ascii "HELLO",ascii "3",ascii "SETNAME",ascii "x",ascii "BOGUS"] ⟨1000,7,2⟩
        server).1.isError=true ∧
      (server.clientAt 7).name≠
        ((hello [ascii "HELLO",ascii "3",ascii "SETNAME",ascii "x",ascii "BOGUS"] ⟨1000,7,2⟩
          server).2.clientAt 7).name := by
  decide +kernel

theorem hello_atomic_unknown :
    (hello [ascii "HELLO",ascii "4",ascii "SETNAME",ascii "x"] ⟨1000,7,2⟩
        server).1.isError=true ∧
      ∃ c',(hello [ascii "HELLO",ascii "4",ascii "SETNAME",ascii "x"] ⟨1000,7,2⟩
          server).2.clients 7=some c' ∧
        c'.protover=(server.clientAt 7).protover ∧
        c'.name=(server.clientAt 7).name := by
  have hclient : server.clients 7=some (server.clientAt 7) :=
    rfl
  have herror : (hello [ascii "HELLO",ascii "4",ascii "SETNAME",ascii "x"] ⟨1000,7,2⟩
      server).1.isError=true := by decide +kernel
  obtain ⟨c',hc',hversion,hkept⟩ := @hello_atomic_iff _ ⟨1000,7,2⟩ _ _ hclient herror
  exact ⟨herror,c',hc',hversion,(hkept.mpr (by decide +kernel)).1⟩

end Reference

end Commands

namespace Server

def versionAt (s : Server) (fd : ℕ) : ℕ := (s.clientAt fd).protover

section Run

variable [Platform] {fr : Frame}

theorem Consecutive.version {pre post : List Call} {call : Call} : ∀ {s : Server},
    Consecutive fr s (pre++call::post) →
    (∀ e∈pre,(Call.after fr e).versionAt fr.fd=e.before.versionAt fr.fd) →
    call.before.versionAt fr.fd=s.versionAt fr.fd := by
  induction pre with
  | nil =>
    intro s h _
    rw [h.1]
  | cons e rest ih =>
    intro s h hkept
    rw [ih h.2 fun e he => hkept e (mem_cons_of_mem _ he),hkept e mem_cons_self,h.1]

end Run

section Reference

open PlatformReference

attribute [local instance] platform

end Reference

end Server

end Mnemos
