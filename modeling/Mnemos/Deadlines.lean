import Mnemos.PayloadTotal

/-!
# Deadline arithmetic

Every command that sets a deadline multiplies its argument by a unit and, if
the deadline is relative, adds the time.
-/

namespace Mnemos.Commands

open Cmd List

inductive TtlOption where
  | ex
  | px
  | exat
  | pxat
deriving DecidableEq

namespace TtlOption

def word : TtlOption → String
  | ex => "EX"
  | px => "PX"
  | exat => "EXAT"
  | pxat => "PXAT"

def relative : TtlOption → Bool
  | ex | px => true
  | exat | pxat => false

def unit : TtlOption → ℤ
  | ex | exat => 1000
  | px | pxat => 1

end TtlOption

inductive DeadlineCommand where
  | set (o : TtlOption) (value : Bytes)
  | getex (o : TtlOption)
  | setex (value : Bytes)
  | psetex (value : Bytes)
  | restore (payload : Bytes) (replace absttl : Bool)
  | expire
  | pexpire
  | expireat
  | pexpireat

namespace DeadlineCommand

def argv (key text : Bytes) : DeadlineCommand → List Bytes
  | set o value => [ascii "SET",key,value,ascii o.word,text]
  | getex o => [ascii "GETEX",key,ascii o.word,text]
  | setex value => [ascii "SETEX",key,text,value]
  | psetex value => [ascii "PSETEX",key,text,value]
  | restore payload replace absttl =>
    [ascii "RESTORE",key,text,payload]++(if replace then [ascii "REPLACE"] else [])++
      (if absttl then [ascii "ABSTTL"] else [])
  | expire => [ascii "EXPIRE",key,text]
  | pexpire => [ascii "PEXPIRE",key,text]
  | expireat => [ascii "EXPIREAT",key,text]
  | pexpireat => [ascii "PEXPIREAT",key,text]

def handler : DeadlineCommand → DataHandler
  | set .. => .set
  | getex _ => .getex
  | setex _ => .setex
  | psetex _ => .psetex
  | restore .. => .restore
  | expire => .expire
  | pexpire => .pexpire
  | expireat => .expireat
  | pexpireat => .pexpireat

def relative : DeadlineCommand → Bool
  | set o _ | getex o => o.relative
  | restore _ _ absttl => !absttl
  | setex _ | psetex _ | expire | pexpire => true
  | expireat | pexpireat => false

def unit : DeadlineCommand → ℤ
  | set o _ | getex o => o.unit
  | setex _ | expire | expireat => 1000
  | psetex _ | restore .. | pexpire | pexpireat => 1

def exact (c : DeadlineCommand) (now n : ℤ) : ℤ := (if c.relative then now else 0)+n*c.unit

/-- The command is one of those that set a deadline: the key is there where it has to be, and a
`RESTORE` has a deadline at all. -/
def Applies (c : DeadlineCommand) (key : Bytes) (n : ℤ) (ctx : Context) (s : Keyspace) : Prop :=
  match c with
  | restore .. => n≠0
  | set .. | setex _ | psetex _ => True
  | _ => ((s.slots (ctx.db,key)).live ctx.now).isSome

end DeadlineCommand

/-- The command answers, and it is refused and changes nothing, deletes the key for a deadline that
is not ahead, or stores the exact deadline. -/
def Settled (c : DeadlineCommand) (key : Bytes) (n : ℤ) (ctx : Context) (s : Keyspace)
    (out : Response×Keyspace) : Prop :=
  out.1≠.terminated ∧ (out.1.isError=true ∧ Unchanged ctx.now s.slots out.2.slots ∨
    c.exact ctx.now n ≤ ctx.now ∧ out.2.slots (ctx.db,key)=.empty ∨
    (out.2.slots (ctx.db,key)).deadline=some (c.exact ctx.now n) ∧ 0 ≤ c.exact ctx.now n ∧
      c.exact ctx.now n ≤ int64Max)

namespace TtlOption

/-- The deadline that `parseExpireToken` computes; none when it refuses. -/
def deadline (o : TtlOption) (now n : ℤ) : Option ℤ :=
  if o.relative && n ≤ 0 then none
  else if o.unit=1000 ∧ (int64Max/1000 < n ∨ n < -(2^63/1000)) then none
  else some (if o.relative then int64 (now+n*o.unit) else n*o.unit)

def parsed (o : TtlOption) (now n : ℤ) : Except ParseResult ℤ :=
  (o.deadline now n).elim (.error .invalidExpire) .ok

end TtlOption

theorem isWord_word (o : TtlOption) : isWord (ascii o.word) "EX"=decide (o=.ex) ∧
    isWord (ascii o.word) "PX"=decide (o=.px) ∧ isWord (ascii o.word) "EXAT"=decide (o=.exat) := by
  cases o <;> decide

theorem parseExpireToken_word (o : TtlOption) (now : ℤ) {n : ℤ} (hn : FitsSigned 64 n) :
    parseExpireToken (ascii o.word) (intDecimal n) now=o.parsed now n := by
  obtain ⟨hex,hpx,hexat⟩ := isWord_word o
  rw [parseExpireToken,stringToInt64_intDecimal hn,TtlOption.parsed,TtlOption.deadline]
  dsimp only
  rw [hex,hpx,hexat]
  cases o <;> simp [TtlOption.relative,TtlOption.unit] <;> (repeat' split) <;> simp_all

theorem parseSetOptions_word (o : TtlOption) (now : ℤ) {n : ℤ} (hn : FitsSigned 64 n) :
    parseSetOptions now [ascii o.word,intDecimal n] {}=
      (o.deadline now n).elim (.error (ParseResult.invalidExpire.response "set"))
        fun at_ => .ok { expire := { set := true, atMs := at_ } } := by
  have h := parseExpireToken_word o now hn
  rw [TtlOption.parsed] at h
  cases hd : o.deadline now n <;> rw [hd] at h <;> cases o <;>
    simp only [parseSetOptions] <;> rw [h] <;> rfl

theorem parseGetexOptions_word (o : TtlOption) (now : ℤ) {n : ℤ} (hn : FitsSigned 64 n) :
    parseGetexOptions now [ascii o.word,intDecimal n] {}=
      (o.deadline now n).elim (.error (ParseResult.invalidExpire.response "getex"))
        fun at_ => .ok { set := true, atMs := at_ } := by
  have h := parseExpireToken_word o now hn
  rw [TtlOption.parsed] at h
  cases hd : o.deadline now n <;> rw [hd] at h <;> cases o <;>
    simp only [parseGetexOptions] <;> rw [h] <;> rfl

theorem int64_eq {x : ℤ} (hlow : int64Min ≤ x) (hhigh : x < 2^64) :
    int64 x=if x ≤ int64Max then x else x-2^64 := by
  unfold int64Min at hlow
  unfold int64 int64Max
  rw [Int.bmod_def]
  split <;> split <;> omega

section Runs

variable (key value : Bytes) (o : TtlOption) (ctx : Context) (s : Keyspace) {n : ℤ}

theorem set_refused (hn : FitsSigned 64 n) (hd : o.deadline ctx.now n=none) :
    set [ascii "SET",key,value,ascii o.word,intDecimal n] ctx s=
      (ParseResult.invalidExpire.response "set",s) := by
  have h := parseSetOptions_word o ctx.now hn
  rw [hd] at h
  simp only [set,bind_apply,nowMs,drop_succ_cons,drop_zero]
  rw [h]
  rfl

theorem set_stored (hn : FitsSigned 64 n) {at_ : ℤ} (hd : o.deadline ctx.now n=some at_) :
    (set [ascii "SET",key,value,ascii o.word,intDecimal n] ctx s).1=.ok ∧
    (set [ascii "SET",key,value,ascii o.word,intDecimal n] ctx s).2.slots (ctx.db,key)=
      ⟨some (Value.makeString value).data,some at_⟩ := by
  have h := parseSetOptions_word o ctx.now hn
  rw [hd] at h
  simp only [set,bind_apply,nowMs,drop_succ_cons,drop_zero]
  rw [h]
  refine ⟨rfl,?_⟩
  simp [applyExpire,bind_apply,pure_apply,arg,(notify_effect _ _ _ _ _).slots_eq,
    (markDirty_effect _ _ _).slots_eq,(setExpireAt_effect _ _ _ _).slots_eq,
    (overwriteValue_effect _ _ _ _).slots_eq]

theorem getex_refused (hn : FitsSigned 64 n) (hd : o.deadline ctx.now n=none) :
    getex [ascii "GETEX",key,ascii o.word,intDecimal n] ctx s=
      (ParseResult.invalidExpire.response "getex",s) := by
  have h := parseGetexOptions_word o ctx.now hn
  rw [hd] at h
  simp only [getex,bind_apply,nowMs,drop_succ_cons,drop_zero]
  rw [h]
  rfl

theorem lookupRead_live {data : Data} (hlive : (s.slots (ctx.db,key)).live ctx.now=some data) :
    (lookupRead key ctx s).1=some ⟨data,ctx.now⟩ := by
  have hfound := lookupWrite_fst key ctx s
  rw [hlive] at hfound
  exact hfound

theorem getex_wrongType (hn : FitsSigned 64 n) {data : Data}
    (hlive : (s.slots (ctx.db,key)).live ctx.now=some data) (hkind : (Value.of data).isString=false)
    {at_ : ℤ} (hd : o.deadline ctx.now n=some at_) :
    (getex [ascii "GETEX",key,ascii o.word,intDecimal n] ctx s).1.isError=true ∧
    Unchanged ctx.now s.slots
      (getex [ascii "GETEX",key,ascii o.word,intDecimal n] ctx s).2.slots := by
  have h := parseGetexOptions_word o ctx.now hn
  rw [hd] at h
  simp only [getex,bind_apply,nowMs,drop_succ_cons,drop_zero]
  rw [h]
  have hfound := lookupRead_live key ctx s hlive
  have hslots := (lookupWrite_effect key ctx s).slots_eq
  have hkind' : (⟨data,ctx.now⟩ : Value).isString=false := hkind
  simp only [Option.elim_some,bind_apply,arg,getD_cons_succ,getD_cons_zero]
  rw [hfound]
  simp only [hkind',Bool.not_false,if_true,pure_apply]
  refine ⟨rfl,?_⟩
  change Unchanged ctx.now s.slots (lookupWrite key ctx s).2.slots
  rw [hslots]
  exact unchanged_purged

theorem getex_stored (hn : FitsSigned 64 n) {data : Data}
    (hlive : (s.slots (ctx.db,key)).live ctx.now=some data) (hkind : (Value.of data).isString=true)
    {at_ : ℤ} (hd : o.deadline ctx.now n=some at_) :
    (∃ ts,(getex [ascii "GETEX",key,ascii o.word,intDecimal n] ctx s).1=.tokens ts) ∧
    (getex [ascii "GETEX",key,ascii o.word,intDecimal n] ctx s).2.slots (ctx.db,key)=
      if at_ ≤ ctx.now then .empty else ⟨some data,some at_⟩ := by
  have h := parseGetexOptions_word o ctx.now hn
  rw [hd] at h
  simp only [getex,bind_apply,nowMs,drop_succ_cons,drop_zero]
  rw [h]
  have hfound := lookupRead_live key ctx s hlive
  have hslots : (lookupRead key ctx s).2.slots=_ := (lookupWrite_effect key ctx s).slots_eq
  have hkind' : (⟨data,ctx.now⟩ : Value).isString=true := hkind
  simp only [Option.elim_some,bind_apply,arg,getD_cons_succ,getD_cons_zero]
  rw [hfound]
  simp only [hkind',Bool.not_true,Bool.false_eq_true,if_false,if_true]
  by_cases hat : at_ ≤ ctx.now
  · simp only [if_pos hat]
    refine ⟨⟨_,rfl⟩,?_⟩
    simp [bind_apply,pure_apply,(notify_effect _ _ _ _ _).slots_eq,
      (markDirty_effect _ _ _).slots_eq,(eraseKey_effect _ _ _).slots_eq]
  · simp only [if_neg hat]
    refine ⟨⟨_,rfl⟩,?_⟩
    simp [bind_apply,pure_apply,(notify_effect _ _ _ _ _).slots_eq,
      (markDirty_effect _ _ _).slots_eq,(setExpireAt_effect _ _ _ _).slots_eq,hslots,purged_value,
      hlive]

theorem setexGeneric_refused {unit : ℤ} {name : String} (command : Bytes) (hn : FitsSigned 64 n)
    (hd : n ≤ 0 ∨ int64Max/unit < n) :
    setexGeneric unit name [command,key,intDecimal n,value] ctx s=
      (ParseResult.invalidExpire.response name,s) := by
  have hd' : (decide (n ≤ 0) || decide (int64Max/unit < n))=true := by simpa using hd
  simp only [setexGeneric,arg,getD_cons_succ,getD_cons_zero,stringToInt64_intDecimal hn]
  rw [if_pos hd']
  rfl

theorem setexGeneric_stored {unit : ℤ} {name : String} (command : Bytes) (hn : FitsSigned 64 n)
    (hd : ¬(n ≤ 0 ∨ int64Max/unit < n)) :
    (setexGeneric unit name [command,key,intDecimal n,value] ctx s).1=.ok ∧
    (setexGeneric unit name [command,key,intDecimal n,value] ctx s).2.slots (ctx.db,key)=
      ⟨some (Value.makeString value).data,some (int64 (ctx.now+n*unit))⟩ := by
  have hd' : ¬(decide (n ≤ 0) || decide (int64Max/unit < n))=true := by simpa using hd
  simp only [setexGeneric,arg,getD_cons_succ,getD_cons_zero,stringToInt64_intDecimal hn]
  rw [if_neg hd']
  refine ⟨rfl,?_⟩
  simp [bind_apply,pure_apply,nowMs,(notify_effect _ _ _ _ _).slots_eq,
    (markDirty_effect _ _ _).slots_eq,(setExpireAt_effect _ _ _ _).slots_eq,
    (setKey_effect _ _ _ _).slots_eq]

theorem expireGeneric_refused {unit : ℤ} {absolute : Bool} {name : String} (command : Bytes)
    (hn : FitsSigned 64 n) (hlive : ((s.slots (ctx.db,key)).live ctx.now).isSome)
    (hd : expireDeadline unit absolute n ctx.now=none) :
    (expireGeneric unit absolute name [command,key,intDecimal n] ctx s).1.isError=true ∧
    Unchanged ctx.now s.slots
      (expireGeneric unit absolute name [command,key,intDecimal n] ctx s).2.slots := by
  obtain ⟨data,hlive⟩ := Option.isSome_iff_exists.mp hlive
  have hfound := lookupWrite_fst key ctx s
  have hslots := (lookupWrite_effect key ctx s).slots_eq
  rw [hlive] at hfound
  simp only [expireGeneric,parseExpire,arg,getD_cons_succ,getD_cons_zero,
    stringToInt64_intDecimal hn,drop_succ_cons,drop_nil,parseExpireFlags,Bool.and_false,
    Bool.or_false,Bool.false_eq_true,if_false,bind_apply]
  rw [hfound]
  simp only [Option.map_some,nowMs_bind,hd,pure_apply]
  refine ⟨rfl,?_⟩
  rw [hslots]
  exact unchanged_purged

theorem expireGeneric_stored {unit : ℤ} {absolute : Bool} {name : String} (command : Bytes)
    (hn : FitsSigned 64 n) (hlive : ((s.slots (ctx.db,key)).live ctx.now).isSome) {at_ : ℤ}
    (hd : expireDeadline unit absolute n ctx.now=some at_) :
    (∃ ts,(expireGeneric unit absolute name [command,key,intDecimal n] ctx s).1=.tokens ts) ∧
    (expireGeneric unit absolute name [command,key,intDecimal n] ctx s).2.slots (ctx.db,key)=
      if at_ ≤ ctx.now then .empty else ⟨(s.slots (ctx.db,key)).live ctx.now,some at_⟩ := by
  obtain ⟨data,hlive⟩ := Option.isSome_iff_exists.mp hlive
  have hfound := lookupWrite_fst key ctx s
  have hslots := (lookupWrite_effect key ctx s).slots_eq
  rw [hlive] at hfound
  simp only [expireGeneric,parseExpire,arg,getD_cons_succ,getD_cons_zero,
    stringToInt64_intDecimal hn,drop_succ_cons,drop_nil,parseExpireFlags,Bool.and_false,
    Bool.or_false,Bool.false_eq_true,if_false,bind_apply]
  rw [hfound]
  simp only [Option.map_some,↓nowMs_bind,bind_apply,hd,ExpireFlags.refuses,Bool.false_and,
    Bool.or_false,Bool.false_eq_true,if_false,applyDeadline]
  by_cases hat : at_ ≤ ctx.now
  · simp only [if_pos hat]
    refine ⟨⟨_,rfl⟩,?_⟩
    simp [bind_apply,pure_apply,(notify_effect _ _ _ _ _).slots_eq,
      (markDirty_effect _ _ _).slots_eq,(eraseKey_effect _ _ _).slots_eq]
  · simp only [if_neg hat]
    refine ⟨⟨_,rfl⟩,?_⟩
    simp [bind_apply,pure_apply,(notify_effect _ _ _ _ _).slots_eq,
      (markDirty_effect _ _ _).slots_eq,(setExpireAt_effect _ _ _ _).slots_eq,
      (expireAtMs_effect _ _ _).slots_eq,hslots,purged_value,hlive]

theorem parseRestore_words (replace absttl : Bool) :
    parseRestore ((if replace then [ascii "REPLACE"] else [])++
      (if absttl then [ascii "ABSTTL"] else [])) (false,false)=.ok (replace,absttl) := by
  cases replace <;> cases absttl <;> rfl

theorem storeRestored_slot (existed absttl : Bool) {ttl : ℤ} (hpos : 0 < ttl) (v : Value) :
    (storeRestored key existed absttl ttl v ctx s).2.slots (ctx.db,key)=
      ⟨some v.data,some (if absttl then ttl else int64 (ctx.now+ttl))⟩ := by
  unfold storeRestored
  cases existed <;> simp [hpos,bind_apply,pure_apply,nowMs,(notify_effect _ _ _ _ _).slots_eq,
    (markDirty_effect _ _ _).slots_eq,(setExpireAt_effect _ _ _ _).slots_eq,
    (setKey_effect _ _ _ _).slots_eq]

section Restore

variable [Platform] (payload : Bytes) (replace absttl : Bool)

theorem restore_run (hn : FitsSigned 64 n) :
    restore ((DeadlineCommand.restore payload replace absttl).argv key (intDecimal n)) ctx s=
      if ((s.slots (ctx.db,key)).live ctx.now).isSome && !replace then
        (.busyKey,(lookupWrite key ctx s).2)
      else if n < 0 then (.invalidRestoreTtl,(lookupWrite key ctx s).2)
      else restorePayload key payload ((s.slots (ctx.db,key)).live ctx.now).isSome absttl n ctx
        (lookupWrite key ctx s).2 := by
  have hfound := lookupWrite_fst key ctx s
  have hparse := parseRestore_words replace absttl
  simp only [DeadlineCommand.argv,restore,cons_append,nil_append,drop_succ_cons,
    drop_zero]
  rw [hparse]
  simp only [bind_apply,arg,getD_cons_succ,getD_cons_zero]
  rw [hfound,Option.isSome_map]
  simp only [restoreChecked,arg,getD_cons_succ,getD_cons_zero,
    stringToInt64_intDecimal hn]
  split
  · rfl
  · split <;> rfl

def RestoreRefused (key payload : Bytes) (replace : Bool) (n : ℤ) (ctx : Context) (s : Keyspace) :
    Prop :=
  (((s.slots (ctx.db,key)).live ctx.now).isSome && !replace)=true ∨ n < 0 ∨
    Rdb.payloadFooterOk payload=false ∨ Rdb.loadPayload payload s.draws=.error .rejected

theorem restore_refused (hn : FitsSigned 64 n) (h : RestoreRefused key payload replace n ctx s) :
    ∃ r,restore ((DeadlineCommand.restore payload replace absttl).argv key (intDecimal n)) ctx s=
      (r,(lookupWrite key ctx s).2) ∧ r.isError=true := by
  rw [restore_run key ctx s payload replace absttl hn]
  by_cases hbusy : (((s.slots (ctx.db,key)).live ctx.now).isSome && !replace)=true
  · rw [if_pos hbusy]
    exact ⟨_,rfl,rfl⟩
  rw [if_neg hbusy]
  by_cases hneg : n < 0
  · rw [if_pos hneg]
    exact ⟨_,rfl,rfl⟩
  rw [if_neg hneg,restorePayload]
  by_cases hfooter : Rdb.payloadFooterOk payload=true
  · have hload : Rdb.loadPayload payload s.draws=.error .rejected :=
      ((h.resolve_left hbusy).resolve_left hneg).resolve_left (by simp [hfooter])
    have hrejected : loadRestored payload (lookupWrite key ctx s).2.draws=
        (.error .rejected,(lookupWrite key ctx s).2.draws) := by
      rw [loadRestored,show (lookupWrite key ctx s).2.draws=s.draws from rfl,hload]
    simp only [hfooter,Bool.not_true,Bool.false_eq_true,if_false,bind_apply,Cmd.random,hrejected]
    exact ⟨_,rfl,rfl⟩
  · rw [if_pos (by simpa using hfooter)]
    exact ⟨_,rfl,rfl⟩

theorem restore_thrown (hn : FitsSigned 64 n) (h : ¬RestoreRefused key payload replace n ctx s)
    (hp : Rdb.PayloadUnallocatable payload) :
    (restore ((DeadlineCommand.restore payload replace absttl).argv key (intDecimal n)) ctx s).1=
      .terminated := by
  simp only [RestoreRefused,not_or,Bool.not_eq_false] at h
  obtain ⟨hbusy,hneg,hfooter,-⟩ := h
  have hraised : loadRestored payload (lookupWrite key ctx s).2.draws=
      (.error .raised,(lookupWrite key ctx s).2.draws) := by
    rw [loadRestored,Rdb.loadPayload_raises.mpr hp]
  rw [restore_run key ctx s payload replace absttl hn,if_neg hbusy,if_neg hneg,restorePayload]
  simp only [hfooter,Bool.not_true,Bool.false_eq_true,if_false,bind_apply,Cmd.random,hraised]
  rfl

theorem restore_stored (hn : FitsSigned 64 n) (hpos : 0 < n)
    (h : ¬RestoreRefused key payload replace n ctx s) (hp : ¬Rdb.PayloadUnallocatable payload) :
    (restore ((DeadlineCommand.restore payload replace absttl).argv key (intDecimal n)) ctx s).1=
      .ok ∧
    ∃ data,(restore ((DeadlineCommand.restore payload replace absttl).argv key (intDecimal n)) ctx
      s).2.slots (ctx.db,key)=⟨some data,some (if absttl then n else int64 (ctx.now+n))⟩ := by
  simp only [RestoreRefused,not_or,Bool.not_eq_false] at h
  obtain ⟨hbusy,hneg,hfooter,hrejected⟩ := h
  rw [restore_run key ctx s payload replace absttl hn,if_neg hbusy,if_neg hneg,restorePayload]
  cases hload : Rdb.loadPayload payload s.draws with
  | error e =>
    cases e with
    | rejected => exact absurd hload hrejected
    | raised => exact absurd (Rdb.loadPayload_raises.mp hload) hp
  | ok r =>
    have hloaded : loadRestored payload (lookupWrite key ctx s).2.draws=(.ok r.1,r.2) := by
      rw [loadRestored,show (lookupWrite key ctx s).2.draws=s.draws from rfl,hload]
    simp only [hfooter,Bool.not_true,Bool.false_eq_true,if_false,bind_apply,Cmd.random,hloaded,
      restoreLoaded]
    exact ⟨storeRestored_ok _ _ _ _ _ _ _,r.1.data,storeRestored_slot key ctx _ _ _ hpos _⟩

end Restore

end Runs

namespace DeadlineCommand

def Overflows (c : DeadlineCommand) (now n : ℤ) : Prop :=
  c.relative=true ∧ n*c.unit ≤ int64Max ∧ int64Max < now+n*c.unit

def Safe [Platform] (c : DeadlineCommand) (key : Bytes) (n : ℤ) (ctx : Context) (s : Keyspace) :
    Prop :=
  match c with
  | set o _ => ¬c.Overflows ctx.now n ∧ ¬(o.relative=false ∧ n < 0 ∧ int64Min ≤ n*o.unit)
  | getex _ => ((s.slots (ctx.db,key)).live ctx.now).all (fun data => !(Value.of data).isString) ∨
      ¬c.Overflows ctx.now n
  | setex _ | psetex _ => ¬c.Overflows ctx.now n
  | restore payload replace _ => RestoreRefused key payload replace n ctx s ∨
      ¬Rdb.PayloadUnallocatable payload ∧ ¬c.Overflows ctx.now n
  | _ => True

end DeadlineCommand

section Settled

variable {c : DeadlineCommand} {key : Bytes} {n : ℤ} {ctx : Context} {s : Keyspace}
variable {out : Response×Keyspace}

theorem settled_of_error (herror : out.1.isError=true) (h : Unchanged ctx.now s.slots out.2.slots) :
    Settled c key n ctx s out := by
  refine ⟨?_,.inl ⟨herror,h⟩⟩
  intro hr
  rw [hr] at herror
  cases herror

theorem settled_stored {data : Data} {at_ : ℤ} (hok : ∃ ts,out.1=.tokens ts)
    (hslot : out.2.slots (ctx.db,key)=⟨some data,some at_⟩) :
    Settled c key n ctx s out ↔
      at_=c.exact ctx.now n ∧ 0 ≤ c.exact ctx.now n ∧ c.exact ctx.now n ≤ int64Max := by
  obtain ⟨ts,hok⟩ := hok
  simp [Settled,hok,Response.isError,hslot,Slot.empty]

theorem settled_expiring {value : Option Data} {at_ : ℤ} (hok : ∃ ts,out.1=.tokens ts)
    (hslot : out.2.slots (ctx.db,key)=if at_ ≤ ctx.now then .empty else ⟨value,some at_⟩) :
    Settled c key n ctx s out ↔ at_ ≤ ctx.now ∧ c.exact ctx.now n ≤ ctx.now ∨
      ctx.now < at_ ∧ at_=c.exact ctx.now n ∧ 0 ≤ c.exact ctx.now n ∧
        c.exact ctx.now n ≤ int64Max := by
  obtain ⟨ts,hok⟩ := hok
  by_cases hat : at_ ≤ ctx.now
  · rw [if_pos hat] at hslot
    simp [Settled,hok,Response.isError,hslot,Slot.empty,hat,not_lt.mpr hat]
  · rw [if_neg hat] at hslot
    simp [Settled,hok,Response.isError,hslot,Slot.empty,hat,not_le.mp hat]

end Settled

section Exact

variable {n : ℤ}

theorem TtlOption.deadline_none {o : TtlOption} {now : ℤ} (h : o.deadline now n=none) :
    (o.relative=true ∧ n ≤ 0) ∨ int64Max < n*o.unit ∨ n*o.unit < int64Min := by
  unfold deadline at h
  cases o <;> simp [relative,unit,int64Max,int64Min] at h ⊢ <;> omega

theorem TtlOption.mul_unit_sign (o : TtlOption) (n : ℤ) :
    (n*o.unit < 0 ↔ n < 0) ∧ (n*o.unit ≤ 0 ↔ n ≤ 0) := by
  cases o <;> simp only [unit] <;> omega

theorem TtlOption.deadline_some {o : TtlOption} {now at_ : ℤ} (hn : FitsSigned 64 n)
    (hnow : 0 ≤ now) (hnow' : now < 2^62) (h : o.deadline now n=some at_) :
    (o.relative=true ∧ 0 < n*o.unit ∧ n*o.unit ≤ int64Max ∧
      at_=if now+n*o.unit ≤ int64Max then now+n*o.unit else now+n*o.unit-2^64) ∨
    (o.relative=false ∧ int64Min ≤ n*o.unit ∧ n*o.unit ≤ int64Max ∧ at_=n*o.unit) := by
  obtain ⟨hlow,hhigh⟩ := hn
  unfold deadline at h
  cases o <;> simp only [relative,unit,int64Min,int64Max] at h ⊢ <;> simp at h hlow hhigh ⊢
  · have hsum := @int64_eq (now+n*1000) (by unfold int64Min; omega) (by omega)
    unfold int64Max at hsum
    rw [hsum] at h
    omega
  · have hsum := @int64_eq (now+n) (by unfold int64Min; omega) (by omega)
    unfold int64Max at hsum
    rw [hsum] at h
    omega
  · omega
  · omega

variable {key : Bytes} {ctx : Context} {s : Keyspace}

theorem setexGeneric_settled_iff {c : DeadlineCommand} {name : String} (command value : Bytes)
    (hn : FitsSigned 64 n) (hnow : 0 ≤ ctx.now) (hnow' : ctx.now < 2^62) (hrel : c.relative=true)
    (hunit : c.unit=1 ∨ c.unit=1000) :
    Settled c key n ctx s
      (setexGeneric c.unit name [command,key,intDecimal n,value] ctx s) ↔
      ¬c.Overflows ctx.now n := by
  obtain ⟨hlow,hhigh⟩ := id hn
  simp only [DeadlineCommand.Overflows,hrel,true_and]
  by_cases hd : n ≤ 0 ∨ int64Max/c.unit < n
  · rw [setexGeneric_refused key value ctx s command hn hd]
    refine iff_of_true (settled_of_error rfl fun _ => .inl rfl) ?_
    unfold int64Max at *
    rcases hunit with hunit|hunit <;> rw [hunit] at hd ⊢ <;> omega
  · obtain ⟨hok,hslot⟩ := @setexGeneric_stored key value ctx s n c.unit name command hn hd
    rw [settled_stored ⟨_,hok⟩ hslot]
    simp only [DeadlineCommand.exact,hrel,if_true]
    have hsum := @int64_eq (ctx.now+n*c.unit)
    unfold int64Max int64Min at *
    rcases hunit with hunit|hunit <;> rw [hunit] at hd hsum ⊢ <;>
      rw [hsum (by omega) (by simp at hhigh; omega)] <;> split <;> omega

theorem expireDeadline_some {unit now at_ : ℤ} {absolute : Bool} (hunit : unit=1 ∨ unit=1000)
    (hnow : 0 ≤ now) (hnow' : now < 2^62) (h : expireDeadline unit absolute n now=some at_) :
    at_=(if absolute then 0 else now)+n*unit ∧ at_ ≤ int64Max := by
  have hleft : int64 (int64Max-now)=int64Max-now := by
    rw [int64_eq (by unfold int64Max int64Min; omega) (by unfold int64Max; omega),
      if_pos (by omega)]
  have hmax : int64Max.tdiv 1000=9223372036854775 := by decide
  have hmin : int64Min.tdiv 1000=-9223372036854775 := by decide
  unfold expireDeadline at h
  rw [hleft] at h
  by_cases hrange : int64Max.tdiv unit < n ∨ n < int64Min.tdiv unit
  · rw [if_pos hrange] at h
    cases h
  rw [if_neg hrange] at h
  have hproduct : int64Min ≤ n*unit ∧ n*unit ≤ int64Max := by
    rcases hunit with rfl|rfl <;> simp only [hmax,hmin,Int.tdiv_one] at hrange <;>
      unfold int64Max int64Min at * <;> omega
  cases absolute with
  | true =>
    cases h
    simpa using hproduct.2
  | false =>
    simp only [Bool.false_eq_true,if_false] at h ⊢
    split at h
    · cases h
    · have hsum : int64 (n*unit+now)=n*unit+now := by
        rw [int64_eq (by omega) (by unfold int64Max at *; omega),if_pos (by omega)]
      cases h
      omega

theorem expireGeneric_settled {c : DeadlineCommand} {name : String} (command : Bytes)
    (hn : FitsSigned 64 n) (hnow : 0 ≤ ctx.now) (hnow' : ctx.now < 2^62)
    (hunit : c.unit=1 ∨ c.unit=1000)
    (hlive : ((s.slots (ctx.db,key)).live ctx.now).isSome) :
    Settled c key n ctx s
      (expireGeneric c.unit (!c.relative) name [command,key,intDecimal n] ctx s) := by
  cases hd : expireDeadline c.unit (!c.relative) n ctx.now with
  | none =>
    have hrun := @expireGeneric_refused key ctx s n _ _ name command hn hlive hd
    exact settled_of_error hrun.1 hrun.2
  | some at_ =>
    have hrun := @expireGeneric_stored key ctx s n _ _ name command hn hlive at_ hd
    have hexact := expireDeadline_some hunit hnow hnow' hd
    rw [settled_expiring hrun.1 hrun.2,DeadlineCommand.exact]
    cases hrel : c.relative <;> simp only [hrel] at hexact ⊢ <;> simp at hexact ⊢ <;> omega

end Exact

section Commands

variable [Platform] {key : Bytes} {n : ℤ} {ctx : Context} {s : Keyspace}

theorem set_settled_iff (o : TtlOption) (value : Bytes) (hn : FitsSigned 64 n) (hnow : 0 ≤ ctx.now)
    (hnow' : ctx.now < 2^62) :
    Settled (.set o value) key n ctx s
      (set ((DeadlineCommand.set o value).argv key (intDecimal n)) ctx s) ↔
      (DeadlineCommand.set o value).Safe key n ctx s := by
  have hsign := o.mul_unit_sign n
  simp only [DeadlineCommand.Safe,DeadlineCommand.Overflows,DeadlineCommand.relative,
    DeadlineCommand.unit,DeadlineCommand.argv]
  cases hd : o.deadline ctx.now n with
  | none =>
    have hrun := set_refused key value o ctx s hn hd
    have hrange := TtlOption.deadline_none hd
    rw [hrun]
    refine iff_of_true (settled_of_error rfl fun _ => .inl rfl) ?_
    unfold int64Max int64Min at *
    cases hrel : o.relative <;> simp only [hrel] at hrange ⊢ <;> simp at hrange ⊢ <;> omega
  | some at_ =>
    have hrun := set_stored key value o ctx s hn hd
    have hrange := TtlOption.deadline_some hn hnow hnow' hd
    rw [settled_stored ⟨_,hrun.1⟩ hrun.2]
    simp only [DeadlineCommand.exact,DeadlineCommand.relative,DeadlineCommand.unit]
    unfold int64Max int64Min at *
    rcases hrange with ⟨hrel,hrange⟩|⟨hrel,hrange⟩ <;> simp only [hrel] <;> simp <;> omega

theorem getex_settled_iff (o : TtlOption) (hn : FitsSigned 64 n) (hnow : 0 ≤ ctx.now)
    (hnow' : ctx.now < 2^62) (hlive : ((s.slots (ctx.db,key)).live ctx.now).isSome) :
    Settled (.getex o) key n ctx s
      (getex ((DeadlineCommand.getex o).argv key (intDecimal n)) ctx s) ↔
      (DeadlineCommand.getex o).Safe key n ctx s := by
  have hsign := o.mul_unit_sign n
  obtain ⟨data,hlive⟩ := Option.isSome_iff_exists.mp hlive
  simp only [DeadlineCommand.Safe,DeadlineCommand.Overflows,DeadlineCommand.relative,
    DeadlineCommand.unit,DeadlineCommand.argv,hlive,Option.all_some,Bool.not_eq_true']
  cases hd : o.deadline ctx.now n with
  | none =>
    have hrun := getex_refused key o ctx s hn hd
    have hrange := TtlOption.deadline_none hd
    rw [hrun]
    refine iff_of_true (settled_of_error rfl fun _ => .inl rfl) (.inr ?_)
    unfold int64Max int64Min at *
    cases hrel : o.relative <;> simp only [hrel] at hrange ⊢ <;> simp at hrange ⊢
    omega
  | some at_ =>
    cases hkind : (Value.of data).isString with
    | false =>
      have hrun := getex_wrongType key o ctx s hn hlive hkind hd
      exact iff_of_true (settled_of_error hrun.1 hrun.2) (.inl rfl)
    | true =>
      have hrun := getex_stored key o ctx s hn hlive hkind hd
      have hrange := TtlOption.deadline_some hn hnow hnow' hd
      rw [settled_expiring hrun.1 hrun.2]
      simp only [DeadlineCommand.exact,DeadlineCommand.relative,DeadlineCommand.unit]
      unfold int64Max int64Min at *
      rcases hrange with ⟨hrel,hrange⟩|⟨hrel,hrange⟩ <;> simp only [hrel] <;> simp <;> omega

theorem restore_settled_iff (payload : Bytes) (replace absttl : Bool) (hn : FitsSigned 64 n)
    (hne : n≠0) (hnow : 0 ≤ ctx.now) (hnow' : ctx.now < 2^62) :
    Settled (.restore payload replace absttl) key n ctx s
      (restore ((DeadlineCommand.restore payload replace absttl).argv key (intDecimal n)) ctx s) ↔
      (DeadlineCommand.restore payload replace absttl).Safe key n ctx s := by
  simp only [DeadlineCommand.Safe,DeadlineCommand.Overflows,DeadlineCommand.relative,
    DeadlineCommand.unit,mul_one]
  by_cases hrefused : RestoreRefused key payload replace n ctx s
  · obtain ⟨r,hrun,herror⟩ := restore_refused key ctx s payload replace absttl hn hrefused
    rw [hrun]
    refine iff_of_true (settled_of_error herror ?_) (.inl hrefused)
    rw [(lookupWrite_effect key ctx s).slots_eq]
    exact unchanged_purged
  rw [or_iff_right hrefused]
  have hpos : 0 < n := by
    have : ¬n < 0 := fun h => hrefused (.inr (.inl h))
    omega
  by_cases hp : Rdb.PayloadUnallocatable payload
  · have hrun := restore_thrown key ctx s payload replace absttl hn hrefused hp
    exact iff_of_false (fun h => h.1 hrun) (fun h => h.1 hp)
  obtain ⟨hok,data,hslot⟩ := restore_stored key ctx s payload replace absttl hn hpos hrefused hp
  rw [settled_stored ⟨_,hok⟩ hslot,and_iff_right hp,DeadlineCommand.exact]
  simp only [DeadlineCommand.relative,DeadlineCommand.unit]
  obtain ⟨hlow,hhigh⟩ := hn
  simp at hhigh
  have hsum := @int64_eq (ctx.now+n) (by unfold int64Min; omega) (by omega)
  rw [hsum]
  unfold int64Max
  cases absttl <;> simp <;> omega

/-- **Deadlines**: a command settles its deadline properly exactly if it is safe. Only the sums of
`SET`, `GETEX`, `SETEX`, `PSETEX` and `RESTORE` and the negative deadlines of `SET` are not. -/
theorem deadline_settled_iff (c : DeadlineCommand) (hn : FitsSigned 64 n) (hnow : 0 ≤ ctx.now)
    (hnow' : ctx.now < 2^62) (happlies : c.Applies key n ctx s) :
    Settled c key n ctx s (c.handler.run (c.argv key (intDecimal n)) ctx s) ↔
      c.Safe key n ctx s := by
  cases c with
  | set o value => exact set_settled_iff o value hn hnow hnow'
  | getex o => exact getex_settled_iff o hn hnow hnow' happlies
  | setex value =>
    exact @setexGeneric_settled_iff n key ctx s (.setex value) "setex" _ value hn hnow hnow' rfl
      (.inr rfl)
  | psetex value =>
    exact @setexGeneric_settled_iff n key ctx s (.psetex value) "psetex" _ value hn hnow hnow' rfl
      (.inl rfl)
  | restore payload replace absttl =>
    exact restore_settled_iff payload replace absttl hn happlies hnow hnow'
  | expire =>
    exact iff_of_true (@expireGeneric_settled n key ctx s .expire "expire" _ hn hnow hnow'
      (.inr rfl) happlies) trivial
  | pexpire =>
    exact iff_of_true (@expireGeneric_settled n key ctx s .pexpire "pexpire" _ hn hnow hnow'
      (.inl rfl) happlies) trivial
  | expireat =>
    exact iff_of_true (@expireGeneric_settled n key ctx s .expireat "expireat" _ hn hnow hnow'
      (.inr rfl) happlies) trivial
  | pexpireat =>
    exact iff_of_true (@expireGeneric_settled n key ctx s .pexpireat "pexpireat" _ hn hnow hnow'
      (.inl rfl) happlies) trivial

end Commands

section Reference

open PlatformReference

attribute [local instance] platform

theorem deadline_settled_ten : Settled (.set .ex (ascii "v")) (ascii "k") 10 ⟨1000,0,2⟩
    server.keyspace (DataHandler.run .set ((DeadlineCommand.set .ex
      (ascii "v")).argv (ascii "k") (intDecimal 10)) ⟨1000,0,2⟩
        server.keyspace) := by
  refine (@deadline_settled_iff _ (ascii "k") 10 ⟨1000,0,2⟩ _ (.set .ex (ascii "v")) (by decide)
    (by decide) (by decide) trivial).mpr ⟨?_,?_⟩
  · rintro ⟨-,-,h⟩
    exact absurd h (by decide)
  · rintro ⟨h,-⟩
    cases h

/-- The largest number of milliseconds from now is stored as a deadline long past, and a negative
deadline is stored as it is. -/
theorem set_px_int64Max :
    ¬Settled (.set .px (ascii "v")) (ascii "k") int64Max ⟨1000,0,2⟩
      server.keyspace (DataHandler.run .set ((DeadlineCommand.set .px
        (ascii "v")).argv (ascii "k") (intDecimal int64Max)) ⟨1000,0,2⟩
          server.keyspace) ∧
    ¬Settled (.set .pxat (ascii "v")) (ascii "k") (-5) ⟨1000,0,2⟩
      server.keyspace (DataHandler.run .set ((DeadlineCommand.set .pxat
        (ascii "v")).argv (ascii "k") (intDecimal (-5))) ⟨1000,0,2⟩
          server.keyspace) := by
  constructor
  · have hrun := @set_stored (ascii "k") (ascii "v") .px ⟨1000,0,2⟩
      server.keyspace int64Max (by decide) (-9223372036854774809) (by decide)
    refine fun h => absurd ((settled_stored ⟨_,hrun.1⟩ hrun.2).mp h).1 ?_
    decide
  · have hrun := @set_stored (ascii "k") (ascii "v") .pxat ⟨1000,0,2⟩
      server.keyspace (-5) (by decide) (-5) (by decide)
    refine fun h => absurd ((settled_stored ⟨_,hrun.1⟩ hrun.2).mp h).2.1 ?_
    decide

end Reference

end Mnemos.Commands
