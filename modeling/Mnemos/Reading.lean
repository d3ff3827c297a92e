import Mnemos.Dispatch

/-!
# Commands that only read

A lookup may remove the key it looks for when that is past its deadline, and
changes nothing else in the databases.
-/

namespace Mnemos

open Cmd

section Unchanged

variable {now : ℤ} {x y z : ℕ×Bytes → Slot}

theorem Unchanged.refl (now : ℤ) (x : ℕ×Bytes → Slot) : Unchanged now x x := fun _ => .inl rfl

theorem Unchanged.trans (h : Unchanged now x y) (h' : Unchanged now y z) : Unchanged now x z := by
  intro p
  rcases h p with hp | ⟨hdue,hgone⟩
  · rcases h' p with hp' | ⟨hdue,hgone⟩
    · exact .inl (hp'.trans hp)
    · exact .inr ⟨hp ▸ hdue,hgone⟩
  · refine .inr ⟨hdue,?_⟩
    rcases h' p with hp' | ⟨-,hgone'⟩
    · exact hp'.trans hgone
    · exact hgone'

end Unchanged

/-- From every state the command removes keys past their deadline at most. -/
def Cmd.Reads {A : Type} (c : Cmd A) : Prop :=
  ∀ ctx s,Unchanged ctx.now s.slots (c ctx s).2.slots

namespace Cmd

def ttlOf (key : Bytes) : Option Value → Cmd ℤ
  | none => pure (-2)
  | some _ => do
    let now ← nowMs
    let deadline ← expireAtMs key
    pure (if deadline < 0 then -1 else if deadline-now < 0 then 0 else deadline-now)

theorem ttlMs_eq (key : Bytes) : ttlMs key=lookupRead key >>= ttlOf key := by
  funext ctx s
  cases hfound : ((s.databases ctx.db).lookupRead key ctx.now).result with
  | none =>
    simp only [bind_apply,ttlMs,onDb,Database.ttlMs,lookupRead,hfound]
    rfl
  | some v =>
    simp only [bind_apply,ttlMs,onDb,Database.ttlMs,lookupRead,hfound,ttlOf,nowMs,expireAtMs,
      pure_apply,Keyspace.put_put]
    simp only [Keyspace.put,Function.update_self]
    split <;> simp

end Cmd

namespace Cmd.Reads

variable {A B : Type} {key : Bytes}

theorem of_effect {c : Cmd A} {slots : Context → Keyspace → ℕ×Bytes → Slot}
    {events : Context → Keyspace → List Event}
    (h : ∀ ctx s,Effect s (c ctx s).2 (slots ctx s) (events ctx s))
    (hslots : ∀ ctx s,Unchanged ctx.now s.slots (slots ctx s)) : c.Reads := by
  intro ctx s
  rw [(h ctx s).slots_eq]
  exact hslots ctx s

theorem of_databases {c : Cmd A} (h : ∀ ctx s,(c ctx s).2.databases=s.databases) : c.Reads := by
  intro ctx s
  have hslots : (c ctx s).2.slots=s.slots := by
    funext p
    rw [Keyspace.slots,h]
    rfl
  exact hslots ▸ .refl ctx.now _

theorem result (a : A) : (pure a : Cmd A).Reads := of_databases fun _ _ => rfl

theorem bind {c : Cmd A} {f : A → Cmd B} (hc : c.Reads) (hf : ∀ a,(f a).Reads) :
    (c >>= f).Reads := fun ctx s => (hc ctx s).trans (hf _ ctx _)

theorem answer {c : Cmd A} {f : A → B} (hc : c.Reads) : (c >>= fun a => pure (f a)).Reads :=
  bind hc fun _ => result _

theorem ite {c : Prop} [Decidable c] {t e : Cmd A} (ht : t.Reads) (he : e.Reads) :
    (if c then t else e).Reads := by
  split
  · exact ht
  · exact he

theorem lookupWrite : (Cmd.lookupWrite key).Reads :=
  of_effect (lookupWrite_effect key) fun _ _ => unchanged_purged

theorem lookupRead : (Cmd.lookupRead key).Reads := lookupWrite

theorem existsKey : (Cmd.existsKey key).Reads :=
  of_effect (existsKey_effect key) fun _ _ => unchanged_purged

theorem expireAtMs : (Cmd.expireAtMs key).Reads :=
  of_effect (expireAtMs_effect key) fun _ s => .refl _ s.slots

theorem notifyKeyMiss : (Cmd.notifyKeyMiss key).Reads := of_databases fun _ _ => rfl

theorem missIfNone {found : Option Value} : (Mnemos.missIfNone key found).Reads := by
  cases found with
  | none => exact notifyKeyMiss
  | some v => exact result ()

theorem lookupTypedRead {typed : Value → Option A} : (Mnemos.lookupTypedRead key typed).Reads :=
  bind lookupRead fun _ => bind missIfNone fun _ => result _

theorem random {g : Draws → A×Draws} : (Cmd.random g).Reads := of_databases fun _ _ => rfl

theorem look {f : ℤ → Database → A} : (onDb fun now d => ⟨f now d,d,[]⟩).Reads :=
  of_databases fun ctx s => congrArg Keyspace.databases (s.put_own ctx.db (f ctx.now _))

theorem ttlMs : (Cmd.ttlMs key).Reads := by
  rw [ttlMs_eq]
  refine bind lookupRead fun found => ?_
  cases found with
  | none => exact result _
  | some v => exact bind (of_databases fun _ _ => rfl) fun _ => answer expireAtMs

theorem unchanged_randomKeyLoop (now : ℤ) (db attempts : ℕ) (s : Keyspace) (draws : Draws) :
    Unchanged now s.slots
      (s.put db (Database.randomKeyLoop now attempts (s.databases db) draws).1).slots := by
  have hstays : ∀ r : Option Bytes,Unchanged now s.slots (s.put db ⟨r,s.databases db,[]⟩).slots := by
    intro r
    rw [Keyspace.put_own]
    exact .refl now _
  induction attempts generalizing s draws with
  | zero => exact hstays none
  | succ attempts ih =>
    rw [Database.randomKeyLoop]
    rcases (s.databases db).dict.randomEntry draws with ⟨entry,draws'⟩
    cases entry with
    | none => exact hstays none
    | some e =>
      have hone : Unchanged now s.slots
          (s.put db ((s.databases db).expireIfNeeded e.1 now)).slots := by
        rw [(s.expireIfNeeded_effect db e.1 now).slots_eq]
        exact unchanged_purged
      dsimp only
      split
      · have hrest := ih (s.put db ((s.databases db).expireIfNeeded e.1 now)) draws'
          fun r => by rw [Keyspace.put_own]; exact .refl now _
        rw [Keyspace.put_put] at hrest
        simp only [Keyspace.put,Function.update_self] at hrest
        exact hone.trans hrest
      · exact hone

theorem randomKey : Cmd.randomKey.Reads := fun ctx s =>
  unchanged_randomKeyLoop ctx.now ctx.db 100 s s.draws

end Cmd.Reads

namespace Commands

variable (keys : List Bytes)

theorem existsLoop_reads : (existsLoop keys).Reads := by
  induction keys with
  | nil => exact .result 0
  | cons key rest ih =>
    exact .bind .existsKey fun _ => .ite (.answer ih) (.bind .notifyKeyMiss fun _ => ih)

theorem touchLoop_reads : (touchLoop keys).Reads := by
  induction keys with
  | nil => exact .result 0
  | cons key rest ih =>
    refine .bind .lookupRead fun found => ?_
    cases found with
    | none => exact .bind .notifyKeyMiss fun _ => ih
    | some v => exact .answer ih

theorem liveKeys_reads (named : Bytes → Bool) (typed : Value → Bool) (keys : List Bytes) :
    (liveKeys named typed keys).Reads := by
  induction keys with
  | nil => exact .result []
  | cons key rest ih => exact .ite ih (.bind .lookupRead fun _ => .answer ih)

theorem scanLoop_reads (count : ℤ) (fuel : ℕ) (cursor : UInt64) (collected : List Bytes) :
    (scanLoop count fuel cursor collected).Reads := by
  induction fuel generalizing cursor collected with
  | zero => exact .result _
  | succ fuel ih => exact .bind .look fun _ => .ite (ih _ _) (.result _)

theorem mgetLoop_reads : (mgetLoop keys).Reads := by
  induction keys with
  | nil => exact .result []
  | cons key rest ih => exact .bind .lookupRead fun _ => .bind .missIfNone fun _ => .answer ih

theorem gatherSets_reads : (gatherSets keys).Reads := by
  induction keys with
  | nil => exact .result _
  | cons key rest ih =>
    refine .bind .lookupTypedRead fun found => ?_
    cases found with
    | missing => exact .answer ih
    | wrongType => exact .result none
    | found s => exact .answer ih

theorem gatherZSetSources_reads [Platform] : (gatherZSetSources keys).Reads := by
  induction keys with
  | nil => exact .result _
  | cons key rest ih =>
    refine .bind .lookupTypedRead fun found => ?_
    cases found with
    | missing => exact .answer ih
    | wrongType => exact .result none
    | found s => exact .answer ih

theorem readTyped_reads {A : Type} (key : Bytes) (typed : Value → Option A) (missing : Response)
    (answer : A → Response) : (readTyped key typed missing answer).Reads := by
  refine .bind .lookupTypedRead fun found => ?_
  cases found <;> exact .result _

section Handlers

variable (argv : List Bytes)

theorem hrandfield_reads : (hrandfield argv).Reads := by
  refine .bind .lookupTypedRead fun found => ?_
  split
  · exact .result _
  · split <;> exact .result _
  · split
    · exact .result _
    · refine .ite (.result _) ?_
      unfold randfieldFrom
      split <;> exact .answer .random

theorem srandmember_reads : (srandmember argv).Reads := by
  refine .bind .lookupTypedRead fun found => ?_
  split
  · exact .result _
  · split <;> exact .result _
  · split
    · exact .result _
    · refine .ite (.result _) ?_
      unfold srandFrom
      split <;> exact .answer .random

theorem setOpCommand_reads (op : SetOp) : (setOpCommand op false argv).Reads := by
  refine .bind (gatherSets_reads _) fun sets => ?_
  cases sets <;> exact .result _

theorem sintercard_reads : (sintercard argv).Reads := by
  unfold sintercard
  split
  · exact .result _
  · refine .ite (.result _) (.ite (.result _) ?_)
    split
    · exact .result _
    · refine .bind (gatherSets_reads _) fun sets => ?_
      cases sets <;> exact .result _

theorem lpos_reads : (lpos argv).Reads := by
  refine .bind .lookupTypedRead fun found => ?_
  split
  · exact .result _
  · split <;> exact .result _
  · split <;> exact .result _

theorem object_reads : (object argv).Reads := by
  refine .ite (.result _) (.ite (.result _) (.bind (.of_databases fun _ _ => rfl) fun _ =>
    .bind .lookupRead fun found => ?_))
  cases found <;> exact .result _

theorem scan_reads : (scan argv).Reads := by
  unfold scan
  split
  · exact .result _
  · split
    · exact .result _
    · exact .bind (scanLoop_reads _ _ _ _) fun _ => .answer (liveKeys_reads _ _ _)

variable [Platform]

theorem emitMembers_reads (items : List (Bytes×Double)) (withScores : Bool) :
    (emitMembers items withScores).Reads :=
  .bind (.of_databases fun _ _ => rfl) fun _ => .ite (.result _) (.ite (.result _) (.result _))

theorem rangeCommand_reads (by_ : RangeBy) (reverse generic allowWithScores : Bool) :
    (rangeCommand by_ reverse generic allowWithScores argv).Reads := by
  unfold rangeCommand
  split
  · exact .result _
  · refine .bind .lookupTypedRead fun found => ?_
    cases found with
    | missing => exact .result _
    | wrongType => exact .result _
    | found z => exact emitMembers_reads _ _

theorem zsetOpCommand_reads (op : ZSetOp) : (zsetOpCommand op false argv).Reads := by
  unfold zsetOpCommand
  dsimp only
  split
  · exact .result _
  · refine .bind (gatherZSetSources_reads _) fun gathered => ?_
    cases gathered with
    | none => exact .result _
    | some members =>
      dsimp only
      split
      · exact .result _
      · exact emitMembers_reads _ _

theorem zintercard_reads : (zintercard argv).Reads := by
  unfold zintercard
  dsimp only
  split
  · exact .result _
  split
  · exact .result _
  · refine .bind (gatherZSetSources_reads _) fun gathered => ?_
    cases gathered <;> exact .result _

theorem zrandmember_reads : (zrandmember argv).Reads := by
  have hfrom : ∀ items options,(zrandFrom items options).Reads := by
    intro items options
    cases options with
    | none => exact .answer .random
    | some o => exact .bind .random fun _ => emitMembers_reads _ _
  refine .bind .lookupTypedRead fun found => ?_
  split
  · exact .result _
  · split <;> exact .result _
  · split
    · exact .result _
    · exact .ite (.result _) (hfrom _ _)

theorem memory_reads : (memory argv).Reads := by
  refine .ite (.ite (.result _) (.bind .lookupRead fun found => ?_)) (.ite (.result _) (.result _))
  cases found <;> exact .result _

end Handlers

end Commands

def DataHandler.reads : DataHandler → Bool
  | .get | .mget | .strlen_ | .getrange | .exists_ | .type | .keys | .scan | .randomkey | .touch
  | .ttl | .pttl | .expiretime | .pexpiretime | .dbsize | .object | .memory | .dump | .llen
  | .lrange | .lindex | .lpos | .hget | .hmget | .hlen | .hexists | .hstrlen | .hkeys | .hvals
  | .hgetall | .hrandfield | .scard | .sismember | .smismember | .smembers | .srandmember | .sinter
  | .sunion | .sdiff | .sintercard | .zscore | .zmscore | .zcard | .zrank | .zrevrank | .zrange
  | .zrevrange | .zrangebyscore | .zrevrangebyscore | .zcount | .zrandmember | .zrangebylex
  | .zrevrangebylex | .zlexcount | .zunion | .zinter | .zdiff | .zintercard => true
  | _ => false

theorem table_reads : ∀ spec∈table,∀ handler,spec.handler=.data handler →
    handler.reads=!spec.isWrite := by
  have hall : table.all (fun spec =>
      match spec.handler with
      | .data handler => handler.reads==!spec.isWrite
      | _ => true)=true := by decide +kernel
  intro spec hspec handler hhandler
  have hone := List.all_eq_true.mp hall spec hspec
  rw [hhandler] at hone
  exact beq_iff_eq.mp hone

section Handlers

variable [Platform] {argv : List Bytes}

open Commands

/-- **Reads**: a handler without the write flag only reads. -/
theorem DataHandler.reads_run {handler : DataHandler} (hreads : handler.reads=true) :
    (handler.run argv).Reads := by
  cases handler with
  | get =>
    refine .bind .lookupRead fun found => ?_
    cases found with
    | none => exact .bind (.of_databases fun _ _ => rfl) fun _ => .answer .notifyKeyMiss
    | some v => exact .ite (.result _) (.answer (.of_databases fun _ _ => rfl))
  | mget => exact .answer (mgetLoop_reads _)
  | strlen_ =>
    refine .bind .lookupRead fun found => ?_
    cases found with
    | none => exact .answer .notifyKeyMiss
    | some v => exact .ite (.result _) (.result _)
  | getrange =>
    change (Commands.getrange argv).Reads
    unfold Commands.getrange
    dsimp only
    split
    · refine .bind .lookupRead fun found => ?_
      cases found with
      | none => exact .answer .notifyKeyMiss
      | some v => exact .ite (.result _) (.result _)
    · exact .result _
  | exists_ => exact .answer (existsLoop_reads _)
  | type => exact .bind .lookupRead fun _ => .answer .missIfNone
  | keys => exact .bind .look fun _ => .answer (liveKeys_reads _ _ _)
  | scan => exact scan_reads argv
  | randomkey => exact .answer .randomKey
  | touch => exact .answer (touchLoop_reads _)
  | ttl | pttl =>
    exact .bind .ttlMs fun _ => .ite (.ite (.answer .notifyKeyMiss) (.result _)) (.result _)
  | expiretime | pexpiretime =>
    refine .bind .lookupRead fun found => .bind .missIfNone fun _ => ?_
    cases found with
    | none => exact .result _
    | some v => exact .answer .expireAtMs
  | dbsize => exact .answer .look
  | object => exact object_reads argv
  | memory => exact memory_reads argv
  | dump =>
    refine .bind .lookupRead fun found => .bind .missIfNone fun _ => ?_
    cases found <;> exact .result _
  | llen | hget | hmget | hlen | hexists | hstrlen | hkeys | hvals | hgetall | scard | sismember
  | smismember | smembers | zscore | zmscore | zcard | zrank | zrevrank =>
    exact readTyped_reads _ _ _ _
  | lrange =>
    change (Commands.lrange argv).Reads
    unfold Commands.lrange
    split
    · exact readTyped_reads _ _ _ _
    · exact .result _
  | lindex =>
    change (Commands.lindex argv).Reads
    unfold Commands.lindex
    split
    · exact .result _
    · exact readTyped_reads _ _ _ _
  | lpos => exact lpos_reads argv
  | hrandfield => exact hrandfield_reads argv
  | srandmember => exact srandmember_reads argv
  | sinter | sunion | sdiff => exact setOpCommand_reads argv _
  | sintercard => exact sintercard_reads argv
  | zrange | zrevrange | zrangebyscore | zrevrangebyscore | zrangebylex | zrevrangebylex =>
    exact rangeCommand_reads argv _ _ _ _
  | zcount =>
    change (Commands.zcount argv).Reads
    unfold Commands.zcount
    split
    · exact .result _
    · exact readTyped_reads _ _ _ _
  | zlexcount =>
    change (Commands.zlexcount argv).Reads
    unfold Commands.zlexcount
    split
    · exact .result _
    · exact readTyped_reads _ _ _ _
  | zrandmember => exact zrandmember_reads argv
  | zunion | zinter | zdiff => exact zsetOpCommand_reads argv _
  | zintercard => exact zintercard_reads argv
  | _ => cases hreads

end Handlers

end Mnemos
