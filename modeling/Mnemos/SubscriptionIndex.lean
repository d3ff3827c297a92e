import Mathlib.Data.Set.Card
import Mnemos.Bystanders

/-!
# The index of subscriptions

Each connection keeps the channels, patterns and shard channels that it holds,
and the registry keeps the connections under each name.
-/

namespace Mnemos

namespace Server

open Commands

/-- What a connection holds of one kind; nothing when there is no such connection. -/
def heldOf (s : Server) (kind : SubKind) (fd : ℕ) : List Bytes :=
  ((s.clients fd).map (heldBy kind)).getD []

def Holds (s : Server) (kind : SubKind) (fd : ℕ) (name : Bytes) : Prop :=
  ∃ c,s.clients fd=some c ∧ name∈heldBy kind c

theorem holds_iff {s : Server} {kind : SubKind} {fd : ℕ} {name : Bytes} :
    s.Holds kind fd name ↔ name∈s.heldOf kind fd := by
  unfold Holds heldOf
  cases s.clients fd with
  | none => simp
  | some c => simp

/-- The registry agrees with the connections. -/
structure Subscribed (s : Server) : Prop where
  index : ∀ kind,(s.registry kind).Agrees fun fd name => s.Holds kind fd name
  sorted : ∀ kind fd,(s.heldOf kind fd).Pairwise (· < ·)

structure SameHeld (s s' : Server) : Prop where
  registries : s'.registry=s.registry
  held : ∀ kind fd,s'.heldOf kind fd=s.heldOf kind fd

section SameHeld

variable {s s' : Server}

theorem SameHeld.iff (h : SameHeld s s') {kind : SubKind} {fd : ℕ} {name : Bytes} :
    s'.Holds kind fd name ↔ s.Holds kind fd name := by
  rw [holds_iff,holds_iff,h.held]

theorem Subscribed.of_same (hs : s.Subscribed) (h : SameHeld s s') : s'.Subscribed where
  index kind := by
    rw [h.registries]
    exact (hs.index kind).congr fun _ _ => h.iff.symm
  sorted kind fd := by
    rw [h.held]
    exact hs.sorted kind fd

theorem SameHeld.of_map (hr : s'.registry=s.registry)
    (h : ∀ kind fd,(s'.clients fd).map (heldBy kind)=(s.clients fd).map (heldBy kind)) :
    SameHeld s s' where
  registries := hr
  held kind fd := by
    unfold heldOf
    rw [h kind fd]

theorem sameHeld_modifyClient (s : Server) (fd : ℕ) {f : Client → Client}
    (hf : ∀ kind c,heldBy kind (f c)=heldBy kind c) : SameHeld s (s.modifyClient fd f) :=
  .of_map rfl fun kind => modifyClient_map (hf kind) s fd

theorem Spares.sameHeld (h : s.Spares s') : SameHeld s s' := by
  refine .of_map h.registries fun kind fd => ?_
  have htouch := h.touches fd
  unfold Touches at htouch
  revert htouch
  generalize s.clients fd=a,s'.clients fd=b
  rintro (hc|-)
  · obtain ⟨output,dirty,watched,rfl⟩ := hc.same
    cases kind <;> rfl
  · rfl

theorem sameHeld_unwatchAllKeys (s : Server) (fd : ℕ) : SameHeld s (s.unwatchAllKeys fd) := by
  refine .of_map ?_ fun kind other => ?_
  · unfold unwatchAllKeys
    split <;> rfl
  · by_cases hother : other=fd
    · rw [hother,unwatchAllKeys_self,Option.map_map]
      cases kind <;> rfl
    · rw [unwatchAllKeys_of_ne s hother]

theorem sameHeld_update (fd : ℕ) (c : Option Client) (hs : ∀ kind,s.heldOf kind fd=[])
    (hc : ∀ kind,∀ c'∈c,heldBy kind c'=[]) {t : Server} (hr : t.registry=s.registry)
    (ht : t.clients=Function.update s.clients fd c) : SameHeld s t where
  registries := hr
  held kind other := by
    have hnone := hs kind
    unfold heldOf at hnone ⊢
    rw [ht]
    by_cases hother : other=fd
    · subst hother
      rw [Function.update_self,hnone]
      cases c with
      | none => rfl
      | some c' => exact hc kind c' rfl
    · rw [Function.update_of_ne hother]

end SameHeld

end Server

namespace Commands

@[simp] theorem heldBy_withHeld (kind other : SubKind) (names : List Bytes) (c : Client) :
    heldBy other (withHeld kind names c)=if other=kind then names else heldBy other c := by
  cases kind <;> cases other <;> rfl

@[simp] theorem registry_updateRegistry (kind other : SubKind) (change : Registry → Registry)
    (s : Server) : (updateRegistry kind change s).registry other=
      if other=kind then change (s.registry other) else s.registry other := by
  cases kind <;> cases other <;> rfl

end Commands

namespace Server

open Commands

section Changes

variable {s : Server} {fd : ℕ} {kind : SubKind}

theorem heldOf_change (names : Client → List Bytes) (change : Registry → Registry)
    (other : SubKind) (x : ℕ) :
    (updateRegistry kind change (s.modifyClient fd fun c => withHeld kind (names c) c)).heldOf
      other x=if other=kind ∧ x=fd then ((s.clients fd).map names).getD [] else s.heldOf other x := by
  unfold heldOf
  rw [updateRegistry_clients]
  by_cases hx : x=fd
  · subst hx
    rw [modifyClient_self,Option.map_map]
    by_cases hkind : other=kind
    · rw [if_pos ⟨hkind,rfl⟩]
      cases s.clients x <;> simp [hkind]
    · rw [if_neg fun h => hkind h.1]
      cases s.clients x <;> simp [hkind]
  · rw [modifyClient_of_ne s hx,if_neg fun h => hx h.2]

theorem Subscribed.addSubscription (h : s.Subscribed) (hpresent : (s.clients fd).isSome)
    (name : Bytes) : (addSubscription kind name fd s).Subscribed := by
  obtain ⟨c,hc⟩ := Option.isSome_iff_exists.mp hpresent
  have hheld : s.heldOf kind fd=heldBy kind c := by
    unfold heldOf
    rw [hc]
    rfl
  unfold Commands.addSubscription
  refine ⟨fun other => ?_,fun other x => ?_⟩
  · rw [registry_updateRegistry]
    split
    · rename_i hkind
      subst hkind
      refine ((h.index other).addTo name fd).congr fun x n => ?_
      rw [holds_iff,holds_iff,heldOf_change,hc]
      by_cases hx : x=fd
      · subst hx
        simp [hheld]
      · simp [hx]
    · rename_i hkind
      refine (h.index other).congr fun x n => ?_
      rw [holds_iff,holds_iff,heldOf_change,if_neg fun h => hkind h.1]
  · rw [heldOf_change]
    split
    · rw [hc]
      exact setInsert_pairwise name (hheld ▸ h.sorted kind fd)
    · exact h.sorted other x

theorem Subscribed.dropSubscription (h : s.Subscribed) (name : Bytes) :
    (dropSubscription kind name fd s).Subscribed := by
  have hlist : ((s.clients fd).map fun c => (heldBy kind c).erase name).getD []=
      (s.heldOf kind fd).erase name := by
    unfold heldOf
    cases s.clients fd <;> rfl
  have hdistinct : ∀ x,(s.heldOf kind x).Nodup := by
    refine fun x => (h.sorted kind x).imp fun {a b} hlt heq => ?_
    subst heq
    exact List.lt_irrefl a hlt
  unfold Commands.dropSubscription
  refine ⟨fun other => ?_,fun other x => ?_⟩
  · rw [registry_updateRegistry]
    split
    · rename_i hkind
      subst hkind
      refine ((h.index other).removeFrom name fd).congr fun x n => ?_
      rw [holds_iff,holds_iff,heldOf_change,hlist]
      by_cases hx : x=fd
      · subst hx
        simp [(hdistinct x).mem_erase_iff,and_comm]
      · simp [hx]
    · rename_i hkind
      refine (h.index other).congr fun x n => ?_
      rw [holds_iff,holds_iff,heldOf_change,if_neg fun h => hkind h.1]
  · rw [heldOf_change,hlist]
    split
    · exact (h.sorted kind fd).sublist List.erase_sublist
    · exact h.sorted other x

theorem heldOf_clearSubscriptions (s : Server) (fd x : ℕ) (kind : SubKind) :
    (s.clearSubscriptions fd).heldOf kind x=if x=fd then [] else s.heldOf kind x := by
  unfold heldOf
  by_cases hx : x=fd
  · subst hx
    rw [if_pos rfl]
    unfold clearSubscriptions
    cases hc : s.clients x with
    | none => simp [hc]
    | some c =>
      dsimp only
      rw [modifyClient_self]
      dsimp only
      rw [hc]
      cases kind <;> rfl
  · rw [if_neg hx]
    unfold clearSubscriptions
    split
    · rfl
    · rw [modifyClient_of_ne _ hx]

theorem registry_clearSubscriptions (s : Server) (fd : ℕ) (kind : SubKind) :
    (s.clearSubscriptions fd).registry kind=
      (s.heldOf kind fd).foldl (·.removeFrom · fd) (s.registry kind) := by
  unfold clearSubscriptions heldOf
  cases s.clients fd with
  | none => rfl
  | some c => cases kind <;> rfl

theorem Subscribed.clearSubscriptions (h : s.Subscribed) (fd : ℕ) :
    (s.clearSubscriptions fd).Subscribed where
  index kind := by
    rw [registry_clearSubscriptions]
    refine ((h.index kind).removeAll fd (s.heldOf kind fd)).congr fun x n => ?_
    rw [holds_iff,holds_iff,heldOf_clearSubscriptions]
    by_cases hx : x=fd
    · simp [hx]
    · simp [hx]
  sorted kind x := by
    rw [heldOf_clearSubscriptions]
    split
    · exact .nil
    · exact h.sorted kind x

theorem Subscribed.closeClient (h : s.Subscribed) (fd : ℕ) : (s.closeClient fd).Subscribed := by
  have hbefore := (h.clearSubscriptions fd).of_same (sameHeld_unwatchAllKeys _ fd)
  unfold Server.closeClient
  split
  · exact h
  refine hbefore.of_same (sameHeld_update fd none (fun kind => ?_) ?_ rfl rfl)
  · rw [(sameHeld_unwatchAllKeys _ fd).held,heldOf_clearSubscriptions,if_pos rfl]
  · exact fun _ c' hc' => absurd hc' (Option.not_mem_none c')

theorem Subscribed.accept (h : s.Subscribed) (now : ℤ) (fd : ℕ) (addr : Bytes) :
    (s.accept now fd addr).Subscribed := by
  unfold Server.accept
  split
  · exact h.of_same ⟨rfl,fun _ _ => rfl⟩
  split
  · exact h
  rename_i hnone
  simp only [Bool.not_eq_true,Option.isSome_eq_false_iff,Option.isNone_iff_eq_none] at hnone
  refine h.of_same (sameHeld_update fd _ (fun kind => ?_) ?_ rfl rfl)
  · unfold heldOf
    rw [hnone]
    rfl
  · intro kind c' hc'
    rw [←Option.mem_some_iff.mp hc']
    cases kind <;> rfl

end Changes

structure KeepsSubscribed (fd : ℕ) (s s' : Server) : Prop where
  present : (s.clients fd).isSome → (s'.clients fd).isSome
  subscribed : (s.clients fd).isSome → s.Subscribed → s'.Subscribed

theorem keepsSubscribed_composes : Act.Composes KeepsSubscribed where
  refl _ _ := ⟨id,fun _ => id⟩
  trans h h' := ⟨fun hp => h'.present (h.present hp),
    fun hp hs => h'.subscribed (h.present hp) (h.subscribed hp hs)⟩

theorem KeepsSubscribed.of_clients {fd : ℕ} {s s' : Server} (hc : s'.clients=s.clients)
    (hr : s'.registry=s.registry) : KeepsSubscribed fd s s' where
  present hp := hc ▸ hp
  subscribed _ hs := hs.of_same (.of_map hr fun _ _ => by rw [hc])

theorem keepsSubscribed_modifyClient (fd : ℕ) (s : Server) {f : Client → Client}
    (hf : ∀ kind c,heldBy kind (f c)=heldBy kind c) :
    KeepsSubscribed fd s (s.modifyClient fd f) where
  present hp := by
    rw [modifyClient_self,Option.isSome_map]
    exact hp
  subscribed _ hs := hs.of_same (sameHeld_modifyClient s fd hf)

theorem Spares.keepsSubscribed {s s' : Server} (h : s.Spares s') (fd : ℕ) :
    KeepsSubscribed fd s s' where
  present hp := by
    have htouch := h.touches fd
    unfold Touches at htouch
    revert htouch hp
    generalize s.clients fd=a,s'.clients fd=b
    rintro hp (hc|-)
    · rfl
    · exact hp
  subscribed _ hs := hs.of_same h.sameHeld

theorem keepsSubscribed_unwatchAllKeys (fd : ℕ) (s : Server) :
    KeepsSubscribed fd s (s.unwatchAllKeys fd) where
  present hp := by
    rw [unwatchAllKeys_self,Option.isSome_map]
    exact hp
  subscribed _ hs := hs.of_same (sameHeld_unwatchAllKeys s fd)

theorem isSome_change {s : Server} {fd : ℕ} {kind : SubKind} {change : Registry → Registry}
    {f : Client → Client} (hp : (s.clients fd).isSome) :
    ((updateRegistry kind change (s.modifyClient fd f)).clients fd).isSome := by
  rw [updateRegistry_clients,modifyClient_self,Option.isSome_map]
  exact hp

theorem keepsSubscribed_clear (fd : ℕ) (s : Server) :
    KeepsSubscribed fd s (s.clearSubscriptions fd) where
  present hp := by
    obtain ⟨c,hc⟩ := Option.isSome_iff_exists.mp hp
    unfold clearSubscriptions
    rw [hc]
    dsimp only
    rw [modifyClient_self,Option.isSome_map]
    exact hp
  subscribed _ hs := hs.clearSubscriptions fd

theorem keepsSubscribed_discard (fd : ℕ) (s : Server) :
    KeepsSubscribed fd s (s.discardTransaction fd) := by
  refine keepsSubscribed_composes.trans ?_ (keepsSubscribed_unwatchAllKeys fd _)
  exact keepsSubscribed_modifyClient fd s fun kind c => by cases kind <;> rfl

theorem keepsSubscribed_watchKey (fd : ℕ) (s : Server) (now : ℤ) (key : Bytes) :
    KeepsSubscribed fd s (watchKey s fd now key) := by
  unfold Commands.watchKey
  split
  · exact keepsSubscribed_composes.refl fd s
  split
  · exact keepsSubscribed_composes.refl fd s
  · dsimp only
    refine keepsSubscribed_composes.trans ?_
      (keepsSubscribed_modifyClient fd _ fun kind c => ?_)
    · exact .of_clients rfl rfl
    · cases kind <;> rfl

section Run

variable [Platform]

theorem keepsSubscribed_rest : Act.KeptByRest KeepsSubscribed := by
  refine rest_of_spares keepsSubscribed_composes (fun fd h => h.keepsSubscribed fd)
    (fun fd s f hf => ?_) (fun fd s kind name => ⟨isSome_change,fun hp hs => ?_⟩)
    (fun fd s kind name => ⟨isSome_change,fun _ hs => ?_⟩) fun fd s => ?_
  · refine keepsSubscribed_modifyClient fd s fun kind c => ?_
    cases kind with
    | channel => exact (hf c).channels
    | pattern => exact (hf c).patterns
    | shard => exact (hf c).shardChannels
  · exact hs.addSubscription hp name
  · exact hs.dropSubscription name
  · refine keepsSubscribed_composes.trans (keepsSubscribed_unwatchAllKeys fd s) ?_
    exact keepsSubscribed_modifyClient fd _ fun kind c => by cases kind <;> rfl

theorem keepsSubscribed_all : Act.KeptByAll KeepsSubscribed where
  toKeptByRest := keepsSubscribed_rest
  clear := keepsSubscribed_clear
  discard := keepsSubscribed_discard
  multi fd s := keepsSubscribed_modifyClient fd s fun kind c => by cases kind <;> rfl
  watch := keepsSubscribed_watchKey

theorem keepsSubscribed_answer : KeptByAnswer KeepsSubscribed fun _ _ => True where
  toComposes := keepsSubscribed_composes
  handler fr call _ := Handler.run_keeps keepsSubscribed_all call.spec.handler call.argv fr _
  enter fd s _ := keepsSubscribed_composes.trans (t := { s with executing := some fd })
    (.of_clients rfl rfl) (keepsSubscribed_modifyClient fd _ fun kind c => by cases kind <;> rfl)
  leave _ _ _ := .of_clients rfl rfl
  write fd s protover r := by
    unfold write
    split
    · exact .of_clients rfl rfl
    · exact keepsSubscribed_modifyClient fd s fun kind c => by cases kind <;> rfl
  refused fd s := keepsSubscribed_modifyClient fd s fun kind c => by cases kind <;> rfl
  queued fd s _ := keepsSubscribed_modifyClient fd s fun kind c => by cases kind <;> rfl
  discard := keepsSubscribed_discard
  flushSelf fd s := keepsSubscribed_composes.trans (t := { s with selfPending := [] })
    (.of_clients rfl rfl) (keepsSubscribed_modifyClient fd _ fun kind c => by cases kind <;> rfl)

theorem Subscribed.request {s : Server} (h : s.Subscribed) (now : ℤ) (fd : ℕ) (argv : List Bytes) :
    (s.request now fd argv).Subscribed := by
  unfold Server.request
  split
  · exact h
  rename_i habsent
  have hpresent : (s.clients fd).isSome := by
    rw [Option.isSome_iff_ne_none]
    exact fun hnone => habsent (by rw [hnone]; rfl)
  have hkept : KeepsSubscribed fd s (s.dispatch now fd argv) :=
    keepsSubscribed_answer.dispatch habsent fun _ _ => trivial
  have hanswered := hkept.subscribed hpresent h
  dsimp only
  split
  · exact hanswered.closeClient fd
  · exact hanswered

theorem Subscribed.step {s : Server} (h : s.Subscribed) (step : ServerStep) :
    (s.step step).Subscribed := by
  unfold Server.step
  split
  · exact h
  cases step with
  | accept now fd addr => exact h.accept now fd addr
  | request now fd argv => exact h.request now fd argv
  | close fd => exact h.closeClient fd
  | cron now => exact h.of_same (serverCron_spares s now).sameHeld
  | childRename => exact h.of_same (childRename_spares s).sameHeld
  | childExit clean => exact h.of_same (childExit_spares clean s).sameHeld

theorem Subscribed.run (steps : List ServerStep) :
    ∀ {s : Server},s.Subscribed → (s.run steps).Subscribed := by
  induction steps with
  | nil => exact fun h => h
  | cons step rest ih => exact fun h => ih (h.step step)

end Run

theorem Started.subscribed [FloatText] {s : Server} (h : s.Started) : s.Subscribed := by
  obtain ⟨config,draws,runId,pid,files,world,h⟩ := h
  refine Subscribed.of_same ?_ (start_spares h).sameHeld
  refine ⟨fun kind => ?_,fun kind fd => .nil⟩
  have hempty : ∀ kind,(create config draws runId pid files world).registry kind=.empty := by
    intro kind
    cases kind <;> rfl
  rw [hempty]
  refine Registry.agrees_empty ?_
  rintro fd name ⟨c,hc,-⟩
  cases hc

/-- **The index of subscriptions**: in every state that a started server reaches and for each of
the three namespaces, a descriptor is under a name exactly when its connection is there and holds
that name, every name of the registry has subscribers, and all of them are connected. -/
theorem subscription_index [Platform] {s : Server} (h : s.Started) (steps : List ServerStep)
    (kind : SubKind) :
    (∀ name fd,fd∈((s.run steps).registry kind).under name ↔
      ∃ c,(s.run steps).clients fd=some c ∧ name∈heldBy kind c) ∧
    (∀ name,name∈((s.run steps).registry kind).names ↔
      ((s.run steps).registry kind).under name≠[]) ∧
    ∀ name fd,fd∈((s.run steps).registry kind).under name → ((s.run steps).clients fd).isSome := by
  have hindex := (h.subscribed.run steps).index kind
  refine ⟨fun name fd => hindex.mem,hindex.named,fun name fd hfd => ?_⟩
  obtain ⟨c,hc,-⟩ := hindex.mem.mp hfd
  rw [hc]
  rfl

theorem length_eq_ncard {A : Type} [DecidableEq A] {l : List A} {P : A → Prop} (hl : l.Nodup)
    (h : ∀ a,a∈l ↔ P a) : (l.length : ℤ)={a | P a}.ncard := by
  rw [← List.toFinset_card_of_nodup hl,← Set.ncard_coe_finset]
  congr 2
  ext a
  rw [Finset.mem_coe,List.mem_toFinset,h,Set.mem_ofPred_eq]

/-- **Introspection**: `PUBSUB NUMSUB` counts the connections that hold a channel, and
`PUBSUB NUMPAT` the patterns that some connection holds. -/
theorem pubsub_counts [Platform] {s : Server} (h : s.Started) (steps : List ServerStep)
    (names : List Bytes) (fr : Frame) :
    let t := s.run steps
    (pubsub (ascii "PUBSUB"::ascii "NUMSUB"::names) fr t).1=
        .tokens (.arrayHeader (names.length*2)::names.flatMap fun name =>
          [.bulk name,.integer {fd | t.Holds .channel fd name}.ncard])∧
      (pubsub [ascii "PUBSUB",ascii "NUMPAT"] fr t).1=
        .integer {name | ∃ fd,t.Holds .pattern fd name}.ncard := by
  intro t
  have hindex : ∀ kind,(t.registry kind).Agrees fun fd name => t.Holds kind fd name :=
    (h.subscribed.run steps).index
  constructor
  · change numSub t.channels _=_
    have hcount (name : Bytes) : ((t.channels.under name).length : ℤ)=_ :=
      length_eq_ncard ((hindex .channel).nodup name) fun _ => (hindex .channel).mem
    simp [numSub,hcount]
    omega
  · refine congrArg Response.integer (length_eq_ncard (hindex .pattern).names_nodup fun name => ?_)
    refine ((hindex .pattern).named name).trans ?_
    rw [ne_eq,List.eq_nil_iff_forall_not_mem,not_forall_not]
    exact exists_congr fun fd => (hindex .pattern).mem

section Witness

open PlatformReference

attribute [local instance] platform

theorem subscription_index_reused_descriptor :
    let steps := [.accept 1000 7 [],.accept 1000 8 [],
      .request 1000 7 [ascii "SUBSCRIBE",ascii "c"],.request 1001 8 [ascii "SUBSCRIBE",ascii "c"],
      .close 8,.accept 1002 8 []]
    let t := started.run steps
    started.Started ∧ (t.clients 8).isSome ∧
      (∃ c,t.clients 7=some c ∧ ascii "c"∈heldBy .channel c) ∧
      ¬∃ c,t.clients 8=some c ∧ ascii "c"∈heldBy .channel c := by
  intro steps t
  have hindex := (subscription_index started_started steps .channel).1
  exact ⟨started_started,by decide +kernel,
    (hindex (ascii "c") 7).mp (by decide +kernel),
    fun hholds => absurd ((hindex (ascii "c") 8).mpr hholds) (by decide +kernel)⟩

theorem pubsub_counts_pattern :
    let t := started.run [.accept 1000 7 [],.request 1000 7 [ascii "PSUBSCRIBE",ascii "c*"]]
    started.Started∧(pubsub [ascii "PUBSUB",ascii "NUMPAT"] ⟨1001,7,2⟩ t).1=
      .integer {name | ∃ fd,t.Holds .pattern fd name}.ncard :=
  ⟨started_started,(pubsub_counts started_started _ [] _).2⟩

end Witness

end Server

/-! ## Published messages -/

open List

namespace Server

structure Delivery where
  fd : ℕ
  kind : String
  pattern : Option Bytes

def deliveries (s : Server) (channel : Bytes) : List Delivery :=
  ((s.channels.under channel).map fun fd => ⟨fd,"message",none⟩)++
    (s.patternTargets channel).map fun t => ⟨t.2,"pmessage",some t.1⟩

section Subscribers

variable {s : Server} {channel : Bytes}

theorem mem_patternTargets (h : s.Subscribed) {pattern : Bytes} {fd : ℕ} :
    (pattern,fd)∈s.patternTargets channel ↔
      globMatch pattern channel false=true ∧ s.Holds .pattern fd pattern := by
  have hindex := h.index .pattern
  have hmem : fd∈s.patterns.under pattern ↔ s.Holds .pattern fd pattern := hindex.mem
  have hnamed := hindex.named pattern
  change pattern∈s.patterns.names ↔ s.patterns.under pattern≠[] at hnamed
  unfold patternTargets
  simp only [mem_flatMap,mem_filter,mem_map,Prod.mk.injEq]
  constructor
  · rintro ⟨name,⟨-,hmatch⟩,x,hx,rfl,rfl⟩
    exact ⟨hmatch,hmem.mp hx⟩
  · rintro ⟨hmatch,hholds⟩
    have hx := hmem.mpr hholds
    exact ⟨pattern,⟨hnamed.mpr (ne_nil_of_mem hx),hmatch⟩,fd,hx,rfl,rfl⟩

theorem patternTargets_nodup (h : s.Subscribed) : (s.patternTargets channel).Nodup := by
  have hindex : s.patterns.Agrees fun fd name => s.Holds .pattern fd name := h.index .pattern
  unfold patternTargets
  refine nodup_flatMap.mpr ⟨fun pattern _ => ?_,?_⟩
  · exact (hindex.nodup pattern).map fun a b hab => (Prod.mk.inj hab).2
  · refine (hindex.names_nodup.filter _).imp fun {a b} hne => ?_
    intro t ha hb
    obtain ⟨x,-,rfl⟩ := mem_map.mp ha
    obtain ⟨y,-,hy⟩ := mem_map.mp hb
    exact hne (Prod.mk.inj hy).1.symm

theorem deliveries_length (h : s.Subscribed) (channel : Bytes) :
    {fd | s.Holds .channel fd channel}.Finite ∧
    {t : Bytes×ℕ | globMatch t.1 channel false=true ∧ s.Holds .pattern t.2 t.1}.Finite ∧
    (s.deliveries channel).length={fd | s.Holds .channel fd channel}.ncard+
      {t : Bytes×ℕ | globMatch t.1 channel false=true ∧ s.Holds .pattern t.2 t.1}.ncard := by
  have hdirect : {fd | s.Holds .channel fd channel}=
      ((s.channels.under channel).toFinset : Set ℕ) := by
    ext fd
    rw [Finset.mem_coe,mem_toFinset]
    exact (h.index .channel).mem.symm
  have hmatched : {t : Bytes×ℕ | globMatch t.1 channel false=true ∧ s.Holds .pattern t.2 t.1}=
      ((s.patternTargets channel).toFinset : Set (Bytes×ℕ)) := by
    ext ⟨pattern,fd⟩
    rw [Finset.mem_coe,mem_toFinset]
    exact (mem_patternTargets h).symm
  have honce : (s.channels.under channel).Nodup := (h.index .channel).nodup channel
  rw [hdirect,hmatched]
  refine ⟨Finset.finite_toSet _,Finset.finite_toSet _,?_⟩
  rw [Set.ncard_coe_finset,Set.ncard_coe_finset,toFinset_card_of_nodup honce,
    toFinset_card_of_nodup (patternTargets_nodup h)]
  unfold deliveries
  rw [length_append,length_map,length_map]

end Subscribers

section Frames

variable [FloatText]

def deliverAll (channel payload : Bytes) (ds : List Delivery) (s : Server) : Server :=
  ds.foldl (fun s d => s.deliverMessage d.fd d.kind d.pattern channel payload) s

def framesFor (channel payload : Bytes) (protover fd : ℕ) (ds : List Delivery) : List Bytes :=
  (ds.filter (·.fd=fd)).map fun d => messageFrame protover d.kind d.pattern channel payload

section Deliveries

variable {channel payload : Bytes}

theorem framesFor_cons (protover fd : ℕ) (d : Delivery) (ds : List Delivery) :
    framesFor channel payload protover fd (d::ds)=
      (if d.fd=fd then [messageFrame protover d.kind d.pattern channel payload] else [])++
        framesFor channel payload protover fd ds := by
  unfold framesFor
  by_cases hd : d.fd=fd
  · simp [hd]
  · simp [hd]

theorem deliverMessage_clients (channel payload : Bytes) (s : Server) (d : Delivery) {fd : ℕ}
    {c : Client} (hc : s.clients fd=some c) :
    (s.deliverMessage d.fd d.kind d.pattern channel payload).clients fd=
      some (if d.fd=fd ∧ s.executing≠some fd then
        { c with output := c.output++messageFrame c.protover d.kind d.pattern channel payload }
      else c) := by
  unfold deliverMessage
  by_cases hfd : d.fd=fd
  · rw [hfd,hc]
    dsimp only
    unfold queueWrite
    by_cases hexec : s.executing=some fd
    · simp [hexec,hc]
    · rw [if_neg hexec,modifyClient_self,hc]
      simp [hexec]
  · rw [if_neg fun h => hfd h.1]
    split
    · exact hc
    · unfold queueWrite
      split
      · exact hc
      · rw [modifyClient_of_ne s (Ne.symm hfd)]
        exact hc

theorem deliverMessage_absent (s : Server) (d : Delivery) {fd : ℕ} (hc : s.clients fd=none) :
    (s.deliverMessage d.fd d.kind d.pattern channel payload).clients fd=none := by
  have htouch := (deliverMessage_spares s d.fd d.kind d.pattern channel payload).touches fd
  unfold Touches at htouch
  rw [hc] at htouch
  revert htouch
  generalize (s.deliverMessage d.fd d.kind d.pattern channel payload).clients fd=c
  rintro ⟨⟩
  rfl

theorem deliverMessage_selfPending (s : Server) (d : Delivery) :
    (s.deliverMessage d.fd d.kind d.pattern channel payload).selfPending=s.selfPending++
      (if s.executing=some d.fd then ((s.clients d.fd).map fun c =>
        messageFrame c.protover d.kind d.pattern channel payload).getD [] else []) := by
  unfold deliverMessage
  cases hc : s.clients d.fd with
  | none => simp
  | some c =>
    dsimp only
    unfold queueWrite
    by_cases hexec : s.executing=some d.fd
    · simp [hexec]
    · rw [if_neg hexec,if_neg hexec,append_nil]
      rfl

theorem deliverMessage_executing (s : Server) (d : Delivery) :
    (s.deliverMessage d.fd d.kind d.pattern channel payload).executing=s.executing :=
  (deliverMessage_spares s d.fd d.kind d.pattern channel payload).executing

variable (ds : List Delivery)

theorem deliverAll_absent : ∀ {s : Server} {fd : ℕ},s.clients fd=none →
    (deliverAll channel payload ds s).clients fd=none := by
  induction ds with
  | nil => exact fun h => h
  | cons d ds ih => exact fun h => ih (deliverMessage_absent _ d h)

theorem deliverAll_idle : ∀ {s : Server} {fd : ℕ} {c : Client},
    s.clients fd=some c → s.executing≠some fd →
    (deliverAll channel payload ds s).clients fd=some { c with
      output := c.output++(framesFor channel payload c.protover fd ds).flatten } := by
  induction ds with
  | nil =>
    intro s fd c hc _
    simpa [deliverAll,framesFor] using hc
  | cons d ds ih =>
    intro s fd c hc hexec
    have hone := deliverMessage_clients channel payload s d hc
    have hrest : (s.deliverMessage d.fd d.kind d.pattern channel payload).executing≠some fd := by
      rw [deliverMessage_executing]
      exact hexec
    refine (ih hone hrest).trans ?_
    rw [framesFor_cons]
    by_cases hfd : d.fd=fd
    · simp [hfd,hexec]
    · simp [hfd]

theorem deliverAll_executing : ∀ {s : Server} {fd : ℕ} {c : Client},
    s.clients fd=some c → s.executing=some fd →
    (deliverAll channel payload ds s).clients fd=some c ∧
      (deliverAll channel payload ds s).selfPending=
        s.selfPending++(framesFor channel payload c.protover fd ds).flatten := by
  induction ds with
  | nil =>
    intro s fd c hc _
    exact ⟨hc,by simp [deliverAll,framesFor]⟩
  | cons d ds ih =>
    intro s fd c hc hexec
    have hone := deliverMessage_clients channel payload s d hc
    rw [if_neg fun h => h.2 hexec] at hone
    have hrest := ih hone ((deliverMessage_executing s d).trans hexec)
    refine ⟨hrest.1,hrest.2.trans ?_⟩
    rw [framesFor_cons,deliverMessage_selfPending,hexec]
    by_cases hfd : d.fd=fd
    · simp [hfd,hc]
    · simp [hfd,Ne.symm hfd]

theorem deliverAll_selfPending : ∀ {s : Server},
    (∀ fd,s.executing=some fd → s.clients fd=none) →
    (deliverAll channel payload ds s).selfPending=s.selfPending := by
  induction ds with
  | nil => exact fun _ => rfl
  | cons d ds ih =>
    intro s hnone
    have hone : (s.deliverMessage d.fd d.kind d.pattern channel payload).selfPending=
        s.selfPending := by
      rw [deliverMessage_selfPending]
      split
      · rename_i hexec
        simp [hnone d.fd hexec]
      · rw [append_nil]
    refine Eq.trans (ih fun fd hexec => ?_) hone
    rw [deliverMessage_executing] at hexec
    exact deliverMessage_absent s d (hnone fd hexec)

end Deliveries

theorem publishMessage_eq (s : Server) (channel payload : Bytes) :
    s.publishMessage channel payload=
      ((s.deliveries channel).length,deliverAll channel payload (s.deliveries channel) s) := by
  unfold publishMessage deliveries deliverAll
  rw [foldl_append,foldl_map,foldl_map,length_append,length_map,
    length_map]

theorem framesFor_deliveries {s : Server} (h : s.Subscribed) {fd : ℕ} {c : Client}
    (hc : s.clients fd=some c) (channel payload : Bytes) (protover : ℕ) :
    ∃ patterns : List Bytes,patterns.Perm (c.patterns.filter (globMatch · channel false)) ∧
      framesFor channel payload protover fd (s.deliveries channel)=
        (if channel∈c.channels then [messageFrame protover "message" none channel payload] else [])++
          patterns.map fun p => messageFrame protover "pmessage" (some p) channel payload := by
  have hchannel : fd∈s.channels.under channel ↔ channel∈c.channels := by
    refine (h.index .channel).mem.trans ?_
    simp [Holds,hc,Commands.heldBy]
  have honce : (s.channels.under channel).Nodup := (h.index .channel).nodup channel
  have hpatterns : ∀ p,s.Holds .pattern fd p ↔ p∈c.patterns := by
    intro p
    simp [Holds,hc,Commands.heldBy]
  have hheld : c.patterns.Nodup := by
    have hsorted := h.sorted .pattern fd
    unfold heldOf at hsorted
    rw [hc] at hsorted
    refine hsorted.imp fun {a b} hlt heq => ?_
    subst heq
    exact List.lt_irrefl a hlt
  refine ⟨((s.patternTargets channel).filter (·.2=fd)).map Prod.fst,?_,?_⟩
  · refine (perm_ext_iff_of_nodup ?_ (hheld.filter _)).mpr fun p => ?_
    · refine ((patternTargets_nodup h).filter _).map_on fun a ha b hb hab => ?_
      have ha' := (mem_filter.mp ha).2
      have hb' := (mem_filter.mp hb).2
      simp only [decide_eq_true_eq] at ha' hb'
      exact Prod.ext hab (ha'.trans hb'.symm)
    · simp only [mem_map,mem_filter,decide_eq_true_eq,Prod.exists]
      constructor
      · rintro ⟨p,x,⟨hx,rfl⟩,rfl⟩
        have htarget := (mem_patternTargets h).mp hx
        exact ⟨(hpatterns p).mp htarget.2,htarget.1⟩
      · rintro ⟨hp,hmatch⟩
        exact ⟨p,fd,⟨(mem_patternTargets h).mpr ⟨hmatch,(hpatterns p).mpr hp⟩,rfl⟩,rfl⟩
  · unfold framesFor deliveries
    rw [filter_append,map_append,filter_map,filter_map,map_map,
      map_map]
    congr 1
    · have hfilter : (s.channels.under channel).filter (fun x => decide (x=fd))=
          if channel∈c.channels then [fd] else [] := by
        rw [filter_eq,honce.count]
        by_cases hsubscribed : channel∈c.channels
        · simp [hchannel,hsubscribed]
        · simp [hchannel,hsubscribed]
      refine Eq.trans (congrArg (List.map _) hfilter) ?_
      split <;> rfl
    · rw [map_map]
      rfl

/-- **Publishing**: where the registry agrees with the connections, every connection gets one
message frame if it is subscribed to the channel and one pmessage frame for each matching pattern
that it holds, in its own protocol version, in its output or, while its own command runs, behind
the reply; nothing else changes, and the result is the number of these frames. -/
theorem publish_exactly_once {s : Server} (h : s.Subscribed) (channel payload : Bytes) :
    let t := (s.publishMessage channel payload).2
    (∀ fd c,s.clients fd=some c →
      ∃ patterns : List Bytes,patterns.Perm (c.patterns.filter (globMatch · channel false)) ∧
        let frames :=
          (if channel∈c.channels then [messageFrame c.protover "message" none channel payload]
            else [])++
          patterns.map fun p => messageFrame c.protover "pmessage" (some p) channel payload
        if s.executing=some fd then
          t.clients fd=some c ∧ t.selfPending=s.selfPending++frames.flatten
        else t.clients fd=some { c with output := c.output++frames.flatten }) ∧
    (∀ fd,s.clients fd=none → t.clients fd=none) ∧
    ((∀ fd,s.executing=some fd → s.clients fd=none) → t.selfPending=s.selfPending) ∧
    s.Beside t ∧
    {fd | s.Holds .channel fd channel}.Finite ∧
    {t : Bytes×ℕ | globMatch t.1 channel false=true ∧ s.Holds .pattern t.2 t.1}.Finite ∧
    (s.publishMessage channel payload).1={fd | s.Holds .channel fd channel}.ncard+
      {t : Bytes×ℕ | globMatch t.1 channel false=true ∧ s.Holds .pattern t.2 t.1}.ncard := by
  intro t
  refine ⟨fun fd c hc => ?_,fun fd hc => ?_,fun hnone => ?_,publishMessage_beside s channel payload,
    ?_⟩
  · obtain ⟨patterns,hperm,hframes⟩ := framesFor_deliveries h hc channel payload c.protover
    refine ⟨patterns,hperm,?_⟩
    dsimp only [t]
    rw [publishMessage_eq,←hframes]
    split
    · rename_i hexec
      exact deliverAll_executing _ hc hexec
    · rename_i hexec
      exact deliverAll_idle _ hc hexec
  · dsimp only [t]
    rw [publishMessage_eq]
    exact deliverAll_absent _ hc
  · dsimp only [t]
    rw [publishMessage_eq]
    exact deliverAll_selfPending _ hnone
  · rw [publishMessage_eq]
    exact deliveries_length h channel

end Frames

section Witness

attribute [local instance] PlatformReference.platform

theorem publish_exactly_once_two_subscriptions :
    let s := (PlatformReference.started.run [.accept 1000 7 [],
      .request 1000 7 [ascii "SUBSCRIBE",ascii "news"],
      .request 1000 7 [ascii "PSUBSCRIBE",ascii "n*"]])
    s.Subscribed ∧ s.executing≠some 7 ∧
      (∀ fd,s.clients fd=none → (s.publishMessage (ascii "news") (ascii "hi")).2.clients fd=none) ∧
      (s.publishMessage (ascii "news") (ascii "hi")).1=2 := by
  intro s
  have hsubscribed : s.Subscribed := PlatformReference.started_started.subscribed.run _
  have hpublish := publish_exactly_once hsubscribed (ascii "news") (ascii "hi")
  exact ⟨hsubscribed,by decide +kernel,hpublish.2.1,by decide +kernel⟩

end Witness

end Server

end Mnemos
