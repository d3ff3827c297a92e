import Mnemos.BenignRequests
import Mnemos.RemoteServer

/-!
# What the tools send

In read-only mode no tool sends a command that writes or administers: the
commands of the tools are named in their scripts, and `redis_command` looks its
own up first.
-/

open List

namespace Mnemos

namespace Talk

variable {W A B : Type} {P : List Bytes → Prop}

def AllSent (P : List Bytes → Prop) (l : Link W) : Prop := ∀ e∈l.sent,P e.argv

/-- A part of the program that only sends commands with a property. -/
def Sends (P : List Bytes → Prop) (c : Talk W A) : Prop := ∀ l,AllSent P l → AllSent P (c l).2

namespace Sends

theorem of_sent {c : Talk W A} (h : ∀ l,(c l).2.sent=l.sent) : Sends P c :=
  fun l hl e he => hl e (h l ▸ he)

theorem pure (a : A) : Sends P (Pure.pure a : Talk W A) := fun _ hl => hl

theorem bind {c : Talk W A} {f : A → Talk W B} (hc : Sends P c) (hf : ∀ a,Sends P (f a)) :
    Sends P (c >>= f) := by
  intro l hl
  have hmid := hc l hl
  cases hcl : c l with
  | mk result l' =>
    rw [hcl] at hmid
    cases result with
    | error halt =>
      rw [bind_error hcl]
      exact hmid
    | ok a =>
      rw [bind_ok hcl]
      exact hf a l' hmid

theorem ite {p : Prop} [Decidable p] {c d : Talk W A} (hc : Sends P c) (hd : Sends P d) :
    Sends P (if p then c else d) := by
  split
  · exact hc
  · exact hd

theorem link {f : Link W → Talk W A} (h : ∀ l,Sends P (f l)) : Sends P (Talk.link >>= f) :=
  bind (of_sent fun _ => rfl) h

theorem modifyClient (f : RespClient → RespClient) : Sends P (Talk.modifyClient (W := W) f) :=
  of_sent fun _ => rfl

theorem system (f : W → A×W) : Sends P (Talk.system f) := of_sent fun _ => rfl

theorem halt (why : Halt) : Sends P (Talk.halt (W := W) (A := A) why) := of_sent fun _ => rfl

theorem began {e : Sent W} (he : P e.argv) : Sends P (Talk.began e) := by
  intro l hl x hx
  rcases mem_append.mp hx with hx | hx
  · exact hl x hx
  · rw [mem_singleton.mp hx]
    exact he

theorem went {e : Sent W} (he : P e.argv) : Sends P (Talk.went e) := by
  intro l hl x hx
  rcases mem_append.mp hx with hx | hx
  · exact hl x (mem_of_mem_dropLast hx)
  · rw [mem_singleton.mp hx]
    exact he

end Sends

end Talk

namespace RespClient

open Talk

variable {W : Type} (net : Net W) {P : List Bytes → Prop}

theorem close_sends : Sends P (close net) :=
  .link fun _ => .ite (.bind (.system _) fun _ => .modifyClient _) (.modifyClient _)

theorem connect_sends (host : Bytes) (port : ℤ) : Sends P (connect net host port) := by
  refine .bind (close_sends net) fun _ => .bind (.system _) fun r => ?_
  cases r with
  | unresolved reason => exact .pure _
  | refused reason => exact .pure _
  | connected => exact .bind (.modifyClient _) fun _ => .pure _

theorem sendAll_sends (fuel : ℕ) (bytes : Bytes) : Sends P (sendAll net fuel bytes) := by
  have hfail : ∀ text : Bytes,Sends P (close net >>= fun _ => pure (some text) : Talk W _) :=
    fun _ => .bind (close_sends net) fun _ => .pure _
  fun_induction sendAll net fuel bytes with
  | case1 => exact .pure _
  | case2 => exact .halt _
  | case3 fuel b bytes ih ih' =>
    refine .bind (.system _) fun r => ?_
    cases r with
    | sent more => exact ih more
    | interrupted => exact ih'
    | closed => exact hfail _
    | failed reason => exact hfail _

variable [FloatText]

theorem readLoop_sends (fuel : ℕ) : ∀ out,Sends P (readLoop net fuel out) := by
  have hfail : ∀ r : Option Bytes×ReplyObject,
      Sends P (close net >>= fun _ => pure r : Talk W _) :=
    fun _ => .bind (close_sends net) fun _ => .pure _
  induction fuel with
  | zero => exact fun _ => .halt _
  | succ fuel ih =>
    intro out
    refine .link fun l => ?_
    split
    · exact .bind (.modifyClient _) fun _ => .pure _
    · exact hfail _
    · exact .halt _
    · refine .bind (.system _) fun r => ?_
      cases r with
      | received first more => exact .bind (.modifyClient _) fun _ => ih _
      | interrupted => exact ih _
      | closed => exact hfail _
      | failed reason => exact hfail _

theorem command_sends (fuel : ℕ) (own : Bool) {argv : List Bytes} (hargv : P argv)
    (out : ReplyObject) : Sends P (command net fuel own argv out) := by
  refine .link fun l => .ite (.bind (.began hargv) fun _ =>
    .bind (sendAll_sends net fuel _) fun failed => ?_) (.pure _)
  cases failed with
  | some error => exact .pure _
  | none =>
    refine .link fun l => .bind (.went hargv) fun _ => .bind (.link fun l =>
      .ite (readLoop_sends net fuel out) (.pure _)) fun r => ?_
    exact .ite (.link fun l => .bind (.went hargv) fun _ => .pure _) (.pure _)

end RespClient

/-- The commands of a script have a property, whatever is replied. -/
def Script.Sends (P : List Bytes → Prop) : Script → Prop
  | .done _ => True
  | .send argv _ next => P argv ∧ ∀ o,(next o).Sends P

namespace RedisTools

open Talk

section Running

variable [FloatText] {W : Type} (net : Net W) (fuel : ℕ) {tools : RedisTools}
variable {P : List Bytes → Prop} (hhello : P [ascii "HELLO",ascii "3"])
  (hselect : P [ascii "SELECT",intDecimal tools.db])
include hhello hselect

theorem ensureConnected_sends : Sends P (tools.ensureConnected net fuel) := by
  have hselected : Sends P (tools.selectDb net fuel) :=
    .ite (.pure _) (.bind (RespClient.command_sends net fuel false hselect {}) fun r =>
      .ite (.bind (RespClient.close_sends net) fun _ => .pure _) (.pure _))
  have hnegotiated : Sends P (RespClient.negotiateResp3 net fuel) :=
    .bind (RespClient.command_sends net fuel false hhello {}) fun r =>
      .ite (.bind (.modifyClient _) fun _ => .pure _) (.pure _)
  refine .link fun l => .ite (.pure _) (.bind (RespClient.connect_sends net _ _) fun failed => ?_)
  cases failed with
  | some error => exact .pure _
  | none =>
    refine .bind hnegotiated fun failed => ?_
    cases failed with
    | some error => exact .pure _
    | none => exact hselected

theorem run_sends {argv : List Bytes} (hargv : P argv) (out : ReplyObject) :
    Sends P (tools.run net fuel argv out) := by
  have hconnected := ensureConnected_sends net fuel hhello hselect
  have hcommand : ∀ out,Sends P (RespClient.command net fuel true argv out) :=
    RespClient.command_sends net fuel true hargv
  refine .bind hconnected fun failed => ?_
  cases failed with
  | some error => exact .pure _
  | none =>
    refine .bind (hcommand out) fun r => .ite (.pure _) (.bind hconnected fun failed => ?_)
    cases failed with
    | some error => exact .pure _
    | none => exact hcommand _

theorem perform_sends {script : Script} (h : script.Sends P) :
    Sends P (tools.perform net fuel script) := by
  induction script with
  | done result => exact .pure _
  | send argv out next ih =>
    refine .bind (run_sends net fuel hhello hselect h.1 out) fun r => ?_
    cases hr : r.1 with
    | some error => exact .pure _
    | none => exact ih r.2 (h.2 r.2)

theorem callTools_sends [ToolArithmetic] (h : ∀ name args,(tools.callTool args name).Sends P)
    (calls : List (Bytes×Json)) : Sends P (tools.callTools net fuel calls) := by
  induction calls with
  | nil => exact .pure _
  | cons call rest ih =>
    exact .bind (perform_sends net fuel hhello hselect (h _ _)) fun _ => .bind ih fun _ => .pure _

end Running

/-- A command of the table that neither writes nor administers. -/
def Reading (argv : List Bytes) : Prop :=
  ∃ spec∈lookupCommand (arg argv 0),spec.isWrite=false ∧ spec.has Flags.kAdmin=false

instance (argv : List Bytes) : Decidable (Reading argv) :=
  inferInstanceAs (Decidable (∃ spec∈_,_))

/-- What the tools may send in read-only mode: a command that reads, or the length of a stream. -/
def Admissible (argv : List Bytes) : Prop := Reading argv ∨ ∃ key,argv=[ascii "XLEN",key]

def ownCommands : List String :=
  ["HELLO","SELECT","GET","SCAN","TYPE","OBJECT","PTTL","STRLEN","LLEN","HLEN","SCARD","ZCARD","INFO"]

theorem reading_own {name : String} (h : name∈ownCommands) (rest : List Bytes) :
    Reading (ascii name::rest) := by
  have hreading : ∀ name∈ownCommands,Reading [ascii name] := by decide +kernel
  exact hreading name h

theorem lookupCommand_xlen : lookupCommand (ascii "XLEN")=none := by decide +kernel

theorem Admissible.benign {argv : List Bytes} (h : Admissible argv) : Benign argv := by
  rcases h with ⟨spec,hspec,hwrite,hadmin⟩ | ⟨key,rfl⟩
  · intro other hother
    rw [Option.mem_unique hother hspec]
    exact ⟨hwrite,hadmin⟩
  · intro spec hspec
    change spec∈lookupCommand (ascii "XLEN") at hspec
    rw [lookupCommand_xlen] at hspec
    cases hspec

section ReadOnly

variable [FloatText] {tools : RedisTools}

theorem redisCommand_sends (h : tools.readOnly=true) (args : Json) :
    (tools.redisCommand args).Sends Admissible := by
  unfold redisCommand
  split
  · split
    · trivial
    · rename_i argv _
      split
      · trivial
      · rename_i hallowed
        refine ⟨.inl ?_,fun o => ?_⟩
        · unfold refusal at hallowed
          rw [if_pos h] at hallowed
          cases hspec : lookupCommand (arg argv 0) with
          | none =>
            rw [hspec] at hallowed
            cases hallowed
          | some spec =>
            rw [hspec] at hallowed
            dsimp only at hallowed
            split at hallowed
            · cases hallowed
            · rename_i hflags
              simp only [Bool.or_eq_true,not_or,Bool.not_eq_true] at hflags
              exact ⟨spec,hspec,hflags⟩
        · dsimp only
          split <;> trivial
  · trivial

theorem get_sends (args : Json) : (get args).Sends Admissible := by
  unfold get
  dsimp only
  split
  · trivial
  · refine ⟨.inl (reading_own (by decide) _),fun o => ?_⟩
    dsimp only
    split <;> trivial

theorem set_sends [ToolArithmetic] (h : tools.readOnly=true) (args : Json) :
    (tools.set args).Sends Admissible := by
  unfold set
  rw [if_pos h]
  trivial

theorem scanPage_sends (pattern : Bytes) (limit : ℤ)
    {more : Bytes → List Json → Bool → Bool → Script}
    (hmore : ∀ cursor keys truncated binary,(more cursor keys truncated binary).Sends Admissible)
    (cursor : Bytes) (keys : List Json) (truncated binary : Bool) :
    (scanPage pattern limit more cursor keys truncated binary).Sends Admissible := by
  refine ⟨.inl (reading_own (by decide) _),fun o => ?_⟩
  dsimp only
  split
  · trivial
  · split
    · split
      · exact hmore _ _ _ _
      · trivial
    · trivial

theorem scanPages_sends (pattern : Bytes) (limit : ℤ) (pages : ℕ) :
    ∀ cursor keys truncated binary,
      (scanPages pattern limit pages cursor keys truncated binary).Sends Admissible := by
  induction pages with
  | zero => exact scanPage_sends pattern limit fun _ _ _ _ => trivial
  | succ pages ih => exact scanPage_sends pattern limit ih

theorem scanKeys_sends [ToolArithmetic] (args : Json) : (scanKeys args).Sends Admissible := by
  unfold scanKeys
  dsimp only
  split
  · exact scanPages_sends _ _ _ _ _ _ _
  · split
    · trivial
    · exact scanPages_sends _ _ _ _ _ _ _

theorem describeSize_sends (key type : Bytes) (out : Json) (o : ReplyObject) :
    (describeSize key type out o).Sends Admissible := by
  have hsend : ∀ command : String,Admissible [ascii command,key] →
      (Script.send [ascii command,key] o fun o =>
        if o.reply.isError then .done (success out)
        else .done (success ((out.set "size" (.number (FloatText.ofInt o.integer))).set
          "size_command" (.string (ascii command))))).Sends Admissible := by
    refine fun command hcommand => ⟨hcommand,fun o => ?_⟩
    dsimp only
    split <;> trivial
  unfold describeSize
  split
  · trivial
  · rename_i command hcommand
    refine hsend command ?_
    unfold sizeCommandFor at hcommand
    repeat' split at hcommand
    all_goals cases hcommand
    iterate 5 exact .inl (reading_own (by decide) _)
    exact .inr ⟨key,rfl⟩

theorem describeKey_sends [ToolArithmetic] (args : Json) : (describeKey args).Sends Admissible := by
  unfold describeKey
  dsimp only
  split
  · trivial
  refine ⟨.inl (reading_own (by decide) _),fun o => ?_⟩
  dsimp only
  split
  · trivial
  split
  · trivial
  refine ⟨.inl (reading_own (by decide) _),fun o => ?_⟩
  refine ⟨.inl (reading_own (by decide) _),fun o => ?_⟩
  exact describeSize_sends _ _ _ o

theorem serverInfo_sends (args : Json) : (serverInfo args).Sends Admissible := by
  refine ⟨.inl (reading_own (by decide) _),fun o => ?_⟩
  dsimp only
  split <;> trivial

theorem callTool_sends [ToolArithmetic] (h : tools.readOnly=true) (name : Bytes) (args : Json) :
    (tools.callTool args name).Sends Admissible := by
  unfold callTool
  split
  · exact redisCommand_sends h args
  split
  · exact get_sends args
  split
  · exact set_sends h args
  split
  · exact scanKeys_sends args
  split
  · exact describeKey_sends args
  split
  · exact serverInfo_sends args
  · trivial

theorem sent_admissible [ToolArithmetic] (h : tools.readOnly=true) {W : Type} (net : Net W)
    (fuel : ℕ) (calls : List (Bytes×Json)) {l : Link W} (hl : l.sent=[]) :
    ∀ e∈(tools.callTools net fuel calls l).2.sent,Admissible e.argv := by
  refine callTools_sends net fuel (.inl (reading_own (by decide) _))
    (.inl (reading_own (by decide) _)) (callTool_sends h) calls l fun e he => ?_
  rw [hl] at he
  cases he

end ReadOnly

/-- **Read-only mode**: all that is sent is in the table and neither writes nor administers, except
the length of a stream, which the table does not have. On one connection of a server, with any
other connections beside it, what is sent removes keys past their deadline and changes nothing
else. -/
theorem readOnly_reads [Platform] [ToolArithmetic] (_exact : FloatText.Exact) {tools : RedisTools}
    (h : tools.readOnly=true) {W : Type} (net : Net W) (fuel : ℕ) (calls : List (Bytes×Json))
    {l : Link W} (hl : l.sent=[]) :
    let sent := (tools.callTools net fuel calls l).2.sent.map fun e => e.argv
    (∀ argv∈sent,Reading argv ∨
      lookupCommand (arg argv 0)=none ∧ ∃ key,argv=[ascii "XLEN",key]) ∧
    ∀ s : Server,s.Started → ∀ (fd : ℕ) (steps : List ServerStep),
      (∀ step∈steps,step.Asks fd fun argv => argv∈sent) →
      ∀ requests : List (ℤ×List Bytes),(∀ r∈requests,r.2∈sent) → ∀ p : ℕ×Bytes,
        let t := s.run steps
        let u := t.run (requests.map fun r => .request r.1 fd r.2)
        u.slots p=t.slots p ∨ (∃ r∈requests,(t.slots p).Due r.1) ∧ u.slots p=.empty := by
  intro sent
  have hsent : ∀ argv∈sent,Admissible argv := by
    intro argv hargv
    obtain ⟨e,he,rfl⟩ := mem_map.mp hargv
    exact sent_admissible h net fuel calls hl e he
  refine ⟨fun argv hargv => ?_,fun s hs fd steps hsteps requests hrequests p => ?_⟩
  · refine (hsent argv hargv).imp_right fun hxlen => ⟨?_,hxlen⟩
    obtain ⟨key,rfl⟩ := hxlen
    exact lookupCommand_xlen
  · refine Server.benign_requests hs (fun step hstep now argv heq => ?_) requests
      (fun r hr => (hsent r.2 (hrequests r hr)).benign) p
    exact (hsent argv (hsteps step hstep now argv heq)).benign

end RedisTools

section Reference

open ToolReference

attribute [local instance] PlatformReference.platform
attribute [local instance] arithmetic

/-- A stray reply makes `describe_key` ask for the length of a stream: `SUBSCRIBE` has two replies,
so that `ECHO` is answered with the second and `TYPE` with the word that `ECHO` repeats. -/
def streamCalls : List (Bytes×Json) :=
  [redisCommand ["SUBSCRIBE","a","b"],redisCommand ["ECHO","stream"],
    (ascii "describe_key",.object [(ascii "key",.string (ascii "k"))])]

theorem streamCalls_sent :
    ((tools true).callTools Remote.net 50 streamCalls
      (link [])).2.sent.map (fun e => e.argv)=
    [["HELLO","3"],["SUBSCRIBE","a","b"],["ECHO","stream"],["TYPE","k"],["OBJECT","ENCODING","k"],
      ["PTTL","k"],["XLEN","k"]].map (·.map ascii) := by
  decide +kernel

/-- In read-only mode a command is sent that the table does not have. -/
theorem readOnly_unlisted :
    (tools true).readOnly=true ∧ ∃ argv∈((tools true).callTools
      Remote.net 50 streamCalls (link [])).2.sent.map (fun e => e.argv),
      lookupCommand (arg argv 0)=none := by
  refine ⟨rfl,[ascii "XLEN",ascii "k"],?_,RedisTools.lookupCommand_xlen⟩
  rw [streamCalls_sent]
  decide

theorem readOnly_reads_stream :
    let sent := ((tools true).callTools Remote.net 50 streamCalls
      (link [])).2.sent.map fun e => e.argv
    let requests := [(1000,[ascii "ECHO",ascii "stream"])]
    let t := PlatformReference.started.run [.accept 1000 7 []]
    (∀ r∈requests,r.2∈sent) ∧ ∀ p : ℕ×Bytes,
      let u := t.run (requests.map fun r => .request r.1 7 r.2)
      u.slots p=t.slots p ∨ (∃ r∈requests,(t.slots p).Due r.1) ∧ u.slots p=.empty := by
  have hrequests : ∀ r∈[((1000 : ℤ),[ascii "ECHO",ascii "stream"])],
      r.2∈((tools true).callTools Remote.net 50 streamCalls
        (link [])).2.sent.map fun e => e.argv := by
    rw [streamCalls_sent]
    decide
  refine ⟨hrequests,(RedisTools.readOnly_reads DoubleText.reference_exact rfl Remote.net 50
    streamCalls rfl).2 _ PlatformReference.started_started 7 _ ?_ _ hrequests⟩
  intro step hstep now argv heq
  rw [mem_singleton.mp hstep] at heq
  cases heq

end Reference

end Mnemos

/-! ## Commands that are sent once more -/

open List

namespace Mnemos

/-- The copies of the tools' own commands on the record since a moment. -/
def Link.copies {W : Type} (l l' : Link W) : List (Sent W) :=
  (l'.sent.drop l.sent.length).filter fun e => e.own

theorem Link.copies_of_sent {W : Type} {l l' : Link W} {more : List (Sent W)}
    (h : l'.sent=l.sent++more) : l.copies l'=more.filter fun e => e.own := by
  unfold copies
  rw [h,drop_left]

namespace RedisTools

open Talk RespClient

section Record

variable {W : Type} {l l₁ l₂ : Link W}

def HandshakeOnly (l l' : Link W) : Prop :=
  ∃ more,l'.sent=l.sent++more ∧ ∀ e∈more,e.own=false

theorem HandshakeOnly.of_eq (h : l₁.sent=l.sent) : HandshakeOnly l l₁ :=
  ⟨[],h.trans (append_nil _).symm,fun _ he => absurd he not_mem_nil⟩

theorem HandshakeOnly.trans (h : HandshakeOnly l l₁) (h' : HandshakeOnly l₁ l₂) :
    HandshakeOnly l l₂ := by
  obtain ⟨more,hmore,hown⟩ := h
  obtain ⟨more',hmore',hown'⟩ := h'
  refine ⟨more++more',by rw [hmore',hmore,append_assoc],fun e he => ?_⟩
  exact (mem_append.mp he).elim (hown e) (hown' e)

theorem HandshakeOnly.of_oneMore {argv : List Bytes} {answered : Bool}
    (h : OneMore false argv answered l l₁) : HandshakeOnly l l₁ := by
  obtain ⟨e,he,hown,-,-⟩ := h
  exact ⟨[e],he,fun x hx => mem_singleton.mp hx ▸ hown⟩

theorem HandshakeOnly.copies (h : HandshakeOnly l l₁) : l.copies l₁=[] := by
  obtain ⟨more,hmore,hown⟩ := h
  rw [Link.copies_of_sent hmore]
  exact filter_eq_nil_iff.mpr fun e he => Bool.eq_false_iff.mp (hown e he)

theorem HandshakeOnly.copies_left (h : HandshakeOnly l l₁) {more : List (Sent W)}
    (h' : l₂.sent=l₁.sent++more) : l.copies l₂=more.filter fun e => e.own := by
  obtain ⟨before,hbefore,hown⟩ := h
  rw [Link.copies_of_sent (h'.trans (by rw [hbefore,append_assoc])),filter_append]
  rw [filter_eq_nil_iff.mpr fun e he => Bool.eq_false_iff.mp (hown e he)]
  rfl

variable [FloatText] (net : Net W) (fuel : ℕ) (tools : RedisTools)

/-- A part of the handshake: it succeeds with a link that is there. -/
def Shaken (l : Link W) (r : Option Bytes) (l' : Link W) : Prop :=
  HandshakeOnly l l' ∧ (r=none → l'.client.connected=true)

theorem negotiateResp3_record (h : l.client.connected=true) :
    Ensures (negotiateResp3 net fuel) l (Shaken l) (HandshakeOnly l) := by
  refine .bind ((command_record net fuel false _ {} h).mono (fun r l₁ h₁ => ?_)
    fun _ h₁ => .of_oneMore h₁)
  split
  · exact .bind (.modifyClient ⟨.of_oneMore h₁.1,h₁.2⟩)
  · exact ⟨.of_oneMore h₁.1,h₁.2⟩

theorem selectDb_record (h : l.client.connected=true) :
    Ensures (tools.selectDb net fuel) l (Shaken l) (HandshakeOnly l) := by
  unfold selectDb
  split
  · exact ⟨.of_eq rfl,fun _ => h⟩
  refine .bind ((command_record net fuel false _ {} h).mono (fun r l₁ h₁ => ?_)
    fun _ h₁ => .of_oneMore h₁)
  split
  · exact .bind (close_meets net ⟨.of_oneMore h₁.1,fun h => absurd h (Option.some_ne_none _)⟩)
  · exact ⟨.of_oneMore h₁.1,h₁.2⟩

theorem ensureConnected_record (l : Link W) :
    Ensures (tools.ensureConnected net fuel) l (Shaken l) (HandshakeOnly l) := by
  refine .bind (.link ?_)
  split
  · rename_i hconnected
    exact ⟨.of_eq rfl,fun _ => hconnected⟩
  refine .bind ((connect_record net _ _ l).mono (fun failed l₁ h₁ => ?_) fun _ h => h.elim)
  have hconnect : HandshakeOnly l l₁ := .of_eq h₁.1
  cases failed with
  | some error => exact ⟨hconnect,fun h => absurd h (Option.some_ne_none _)⟩
  | none =>
    refine .bind ((negotiateResp3_record net fuel (h₁.2 rfl)).mono (fun failed l₂ h₂ => ?_)
      fun _ h₂ => hconnect.trans h₂)
    have hhello : HandshakeOnly l l₂ := hconnect.trans h₂.1
    cases failed with
    | some error => exact ⟨hhello,fun h => absurd h (Option.some_ne_none _)⟩
    | none =>
      exact (selectDb_record net fuel tools (h₂.2 rfl)).mono
        (fun _ _ h₃ => ⟨hhello.trans h₃.1,h₃.2⟩) fun _ h₃ => hhello.trans h₃

end Record

/-- What at-most-once execution asks of the copies of a command and of the result. -/
structure ExecutedOnce (copies : List (Sent Remote)) (succeeded : Bool) : Prop where
  once : (copies.filter Sent.executed).length ≤ 1
  notAgain : ∀ e∈copies.dropLast,e.executed=true → e.answer≠none
  reported : ∀ e∈copies,e.executed=true → e.answer=none → succeeded=false

instance (copies : List (Sent Remote)) (succeeded : Bool) :
    Decidable (ExecutedOnce copies succeeded) :=
  decidable_of_iff
    ((copies.filter Sent.executed).length ≤ 1 ∧
      (∀ e∈copies.dropLast,e.executed=true → e.answer≠none) ∧
      ∀ e∈copies,e.executed=true → e.answer=none → succeeded=false)
    ⟨fun h => ⟨h.1,h.2.1,h.2.2⟩,fun h => ⟨h.once,h.notAgain,h.reported⟩⟩

namespace ExecutedOnce

variable {copies : List (Sent Remote)} {succeeded : Bool} {e e' : Sent Remote}

theorem nil : ExecutedOnce [] succeeded :=
  ⟨Nat.zero_le 1,fun _ he => absurd he not_mem_nil,fun _ he => absurd he not_mem_nil⟩

theorem single (h : e.answer.isSome=succeeded) : ExecutedOnce [e] succeeded := by
  refine ⟨length_filter_le _ [e],fun _ he => absurd he not_mem_nil,
    fun x hx _ hlost => ?_⟩
  rw [mem_singleton.mp hx] at hlost
  rw [← h,hlost]
  rfl

theorem pair (hfirst : e.executed=false) (h : e'.answer.isSome=succeeded) :
    ExecutedOnce [e,e'] succeeded := by
  have hnot : ¬e.executed=true := Bool.eq_false_iff.mp hfirst
  refine ⟨?_,fun x hx hrun => ?_,fun x hx hrun hlost => ?_⟩
  · rw [filter_cons_of_neg hnot]
    exact length_filter_le _ [e']
  · rw [mem_singleton.mp hx] at hrun
    exact absurd hrun hnot
  · rcases mem_cons.mp hx with rfl | hx
    · exact absurd hrun hnot
    · exact (single h).reported x hx hrun hlost

theorem mono {succeeded' : Bool} (h : ExecutedOnce copies succeeded)
    (hle : succeeded'=true → succeeded=true) : ExecutedOnce copies succeeded' := by
  refine ⟨h.once,h.notAgain,fun x hx hrun hlost => ?_⟩
  have hfailed := h.reported x hx hrun hlost
  exact Bool.eq_false_iff.mpr fun hs => Bool.eq_false_iff.mp hfailed (hle hs)

end ExecutedOnce

section Retries

variable [Platform] (fuel : ℕ) (tools : RedisTools)

/-- In the schedule ahead the first copy is executed, its reply is not read, and a new link is
made. -/
def Resent (argv : List Bytes) (out : ReplyObject) (l : Link Remote) : Prop :=
  ∃ l₁ l₂ l₃ error out' e,
    tools.ensureConnected Remote.net fuel l=(.ok none,l₁) ∧
    command Remote.net fuel true argv out l₁=(.ok (some error,out'),l₂) ∧
    l₂.sent=l₁.sent++[e] ∧ e.executed=true ∧
    tools.ensureConnected Remote.net fuel l₂=(.ok none,l₃)

def succeeded : Except Halt (Option Bytes×ReplyObject) → Bool
  | .ok r => r.1.isNone
  | .error _ => false

theorem copies_again (argv : List Bytes) (out : ReplyObject) {l l₁ l₂ l₃ : Link Remote}
    {e : Sent Remote} (h₁ : HandshakeOnly l l₁) (hown : e.own=true) (he : l₂.sent=l₁.sent++[e])
    (h₃ : Shaken l₂ none l₃) :
    ∃ e',l.copies (command Remote.net fuel true argv out l₃).2=[e,e'] ∧
      e'.answer.isSome=succeeded (command Remote.net fuel true argv out l₃).1 := by
  have hcommand := command_record Remote.net fuel true argv out (h₃.2 rfl)
  obtain ⟨more,hmore,hshaken⟩ := h₃.1
  have hpair : ∀ (l₄ : Link Remote) (e' : Sent Remote),e'.own=true → l₄.sent=l₃.sent++[e'] →
      l.copies l₄=[e,e'] := by
    intro l₄ e' hown' he'
    have hsent : l₄.sent=l₁.sent++(e::(more++[e'])) := by
      rw [he',hmore,he]
      simp
    rw [h₁.copies_left hsent,filter_cons_of_pos hown,filter_append,
      filter_eq_nil_iff.mpr fun x hx => Bool.eq_false_iff.mp (hshaken x hx),
      nil_append,filter_cons_of_pos hown',filter_nil]
  cases hrun : command Remote.net fuel true argv out l₃ with
  | mk r l₄ =>
    cases r with
    | error halt =>
      obtain ⟨e',he',hown',-,hanswer⟩ := hcommand.of_error hrun
      exact ⟨e',hpair l₄ e' hown' he',hanswer⟩
    | ok r =>
      obtain ⟨⟨e',he',hown',-,hanswer⟩,-⟩ := hcommand.of_ok hrun
      exact ⟨e',hpair l₄ e' hown' he',hanswer⟩

variable {argv : List Bytes} {out : ReplyObject}

theorem run_once {l : Link Remote} (h : ¬tools.Resent fuel argv out l) :
    ExecutedOnce (l.copies (tools.run Remote.net fuel argv out l).2)
      (succeeded (tools.run Remote.net fuel argv out l).1) := by
  have hshake := ensureConnected_record Remote.net fuel tools
  unfold run
  cases h₁ : tools.ensureConnected Remote.net fuel l with
  | mk r₁ l₁ =>
    obtain halt | ⟨_ | error⟩ := r₁
    · rw [bind_error h₁,((hshake l).of_error h₁).copies]
      exact .nil
    · have hl₁ := (hshake l).of_ok h₁
      have hcommand := command_record Remote.net fuel true argv out (hl₁.2 rfl)
      rw [bind_ok h₁]
      dsimp only
      cases h₂ : command Remote.net fuel true argv out l₁ with
      | mk r₂ l₂ =>
        obtain halt | ⟨_ | error,out'⟩ := r₂
        · obtain ⟨e,he,hown,-,hanswer⟩ := hcommand.of_error h₂
          rw [bind_error h₂,hl₁.1.copies_left he,filter_cons_of_pos hown]
          exact .single hanswer
        · obtain ⟨⟨e,he,hown,-,hanswer⟩,-⟩ := hcommand.of_ok h₂
          rw [bind_ok h₂]
          change ExecutedOnce (l.copies l₂) true
          rw [hl₁.1.copies_left he,filter_cons_of_pos hown]
          exact .single hanswer
        · obtain ⟨⟨e,he,hown,-,hanswer⟩,-⟩ := hcommand.of_ok h₂
          rw [bind_ok h₂]
          change ExecutedOnce (l.copies (tools.retry Remote.net fuel argv (some error,out') l₂).2)
            (succeeded (tools.retry Remote.net fuel argv (some error,out') l₂).1)
          unfold retry
          cases h₃ : tools.ensureConnected Remote.net fuel l₂ with
          | mk r₃ l₃ =>
            have hone : ∀ l₄,HandshakeOnly l₂ l₄ → ExecutedOnce (l.copies l₄) false := by
              rintro l₄ ⟨more,hmore,hshaken⟩
              have hsent : l₄.sent=l₁.sent++(e::more) := by
                rw [hmore,he]
                simp
              rw [hl₁.1.copies_left hsent,filter_cons_of_pos hown,
                filter_eq_nil_iff.mpr fun x hx => Bool.eq_false_iff.mp (hshaken x hx)]
              exact .single hanswer
            obtain halt | ⟨_ | error⟩ := r₃
            · rw [bind_error h₃]
              exact hone l₃ ((hshake l₂).of_error h₃)
            · rw [bind_ok h₃]
              obtain ⟨e',hcopies,hanswer'⟩ :=
                copies_again fuel argv out' hl₁.1 hown he
                  ((hshake l₂).of_ok h₃)
              dsimp only
              rw [hcopies]
              refine .pair (Bool.eq_false_iff.mpr fun hrun => h ?_) hanswer'
              exact ⟨l₁,l₂,l₃,error,out',e,h₁,h₂,he,hrun,h₃⟩
            · rw [bind_ok h₃]
              exact hone l₃ ((hshake l₂).of_ok h₃).1
    · rw [bind_ok h₁]
      change ExecutedOnce (l.copies l₁) false
      rw [((hshake l).of_ok h₁).1.copies]
      exact .nil

theorem run_again {l : Link Remote} (h : tools.Resent fuel argv out l) :
    ∃ e e',l.copies (tools.run Remote.net fuel argv out l).2=[e,e'] ∧ e.executed=true ∧
      e.answer=none := by
  obtain ⟨l₁,l₂,l₃,error,out',e,h₁,h₂,he,hrun,h₃⟩ := h
  have hshake := ensureConnected_record Remote.net fuel tools
  have hl₁ := (hshake l).of_ok h₁
  obtain ⟨⟨e₀,he₀,hown,-,hanswer⟩,-⟩ :=
    (command_record Remote.net fuel true argv out (hl₁.2 rfl)).of_ok h₂
  obtain rfl : e₀=e := singleton_injective (append_cancel_left (he₀.symm.trans he))
  obtain ⟨e',hcopies,-⟩ :=
    copies_again fuel argv out' hl₁.1 hown he ((hshake l₂).of_ok h₃)
  refine ⟨e₀,e',?_,hrun,Option.not_isSome_iff_eq_none.mp (Bool.eq_false_iff.mp hanswer)⟩
  rw [← hcopies]
  have hretry : tools.retry Remote.net fuel argv (some error,out') l₂=
      command Remote.net fuel true argv out' l₃ := bind_ok h₃
  unfold run
  rw [bind_ok h₁]
  dsimp only
  rw [bind_ok h₂]
  exact congrArg (fun r => l.copies r.2) hretry

def reportsSuccess : Except Halt ToolResult → Bool
  | .ok result => !result.isError
  | .error _ => false

/-- A tool that sends one command leaves the link as the command does, and it succeeds only when
the command does. -/
theorem perform_send {next : ReplyObject → Script} (h : ∀ o,∃ result,next o=.done result)
    (l : Link Remote) :
    let r := tools.perform Remote.net fuel (.send argv out next) l
    r.2=(tools.run Remote.net fuel argv out l).2 ∧
      (reportsSuccess r.1=true → succeeded (tools.run Remote.net fuel argv out l).1=true) := by
  intro r
  have hr : r=tools.perform Remote.net fuel (.send argv out next) l := rfl
  unfold perform at hr
  cases hrun : tools.run Remote.net fuel argv out l with
  | mk result l' =>
    obtain halt | ⟨_ | error,o⟩ := result
    · rw [bind_error hrun] at hr
      rw [hr]
      exact ⟨rfl,fun h => h⟩
    · rw [bind_ok hrun] at hr
      obtain ⟨result,hresult⟩ := h o
      dsimp only at hr
      rw [hresult] at hr
      rw [hr]
      exact ⟨rfl,fun _ => rfl⟩
    · rw [bind_ok hrun] at hr
      rw [hr]
      exact ⟨rfl,fun h => h⟩

variable [ToolArithmetic]

inductive Single : Script → Prop where
  | done (result : ToolResult) : Single (.done result)
  | send (argv : List Bytes) (out : ReplyObject) {next : ReplyObject → Script}
      (h : ∀ o,∃ result,next o=.done result) : Single (.send argv out next)

theorem callTool_single {name : Bytes} (h : name=ascii "redis_command" ∨ name=ascii "set")
    (args : Json) : Single (tools.callTool args name) := by
  rcases h with rfl | rfl
  · change Single (tools.redisCommand args)
    unfold redisCommand
    split
    · split
      · exact .done _
      · split
        · exact .done _
        · refine .send _ {} fun o => ?_
          dsimp only
          split <;> exact ⟨_,rfl⟩
    · exact .done _
  · have hwith : ∀ key value ttl,Single (setWith key value ttl) := by
      refine fun key value ttl => .send _ {} fun o => ?_
      dsimp only
      split <;> exact ⟨_,rfl⟩
    change Single (tools.set args)
    unfold set
    split
    · exact .done _
    dsimp only
    split
    · exact .done _
    split
    · exact .done _
    split
    · exact hwith _ _ _
    · split
      · exact .done _
      · exact hwith _ _ _

/-- **At most once**: one call of `redis_command` or `set` has its command executed at most once,
and not sent again but reported as a failure when it was executed and its reply was lost, exactly
when in the schedule ahead no new link is made after the first copy was executed without its
reply. -/
theorem executedOnce_iff {name : Bytes} (h : name=ascii "redis_command" ∨ name=ascii "set")
    (args : Json) (l : Link Remote) :
    let r := tools.perform Remote.net fuel (tools.callTool args name) l
    ExecutedOnce (l.copies r.2) (reportsSuccess r.1) ↔
      ¬∃ argv out next,tools.callTool args name=.send argv out next ∧
        tools.Resent fuel argv out l := by
  intro r
  have hsingle := tools.callTool_single h args
  cases hscript : tools.callTool args name with
  | done result =>
    have hr : r=(.ok result,l) := congrArg (fun c => tools.perform Remote.net fuel c l) hscript
    rw [hr,Link.copies_of_sent (append_nil _).symm]
    refine iff_of_true .nil ?_
    rintro ⟨argv,out,next,heq,-⟩
    cases heq
  | send argv out next =>
    rw [hscript] at hsingle
    have hnext : ∀ o,∃ result,next o=.done result := by
      cases hsingle with
      | send _ _ hnext => exact hnext
    have hr : r=tools.perform Remote.net fuel (.send argv out next) l :=
      congrArg (fun c => tools.perform Remote.net fuel c l) hscript
    obtain ⟨hlink,hreport⟩ := tools.perform_send fuel hnext l
    rw [hr,hlink]
    constructor
    · rintro honce ⟨argv',out',next',heq,hagain⟩
      cases heq
      obtain ⟨e,e',hcopies,hrun,hlost⟩ := tools.run_again fuel hagain
      rw [hcopies] at honce
      exact honce.notAgain e mem_cons_self hrun hlost
    · intro hnot
      exact (tools.run_once fuel fun hagain => hnot ⟨argv,out,next,rfl,hagain⟩).mono hreport

end Retries

end RedisTools

section Reference

open ToolReference

attribute [local instance] PlatformReference.platform
attribute [local instance] arithmetic

/-- A schedule in which the reply to the first own command is late: the moves for the connection,
for sending `HELLO` and reading its reply and for sending the command are as they should be. -/
def lateReply : List Move :=
  replicate 4 move++
    [{ move with fault := some (.failed (ascii "Resource temporarily unavailable")) }]

/-- A counter is increased twice by one call that reports success. -/
theorem executedTwice :
    let args := (redisCommand ["INCR","k"]).2
    let l := link lateReply
    let r := (tools false).perform Remote.net 50
      ((tools false).callTool args (ascii "redis_command")) l
    RedisTools.reportsSuccess r.1=true ∧
      ((l.copies r.2).filter Sent.executed).length=2 ∧
      r.2.world.served.map Prod.fst=[[ascii "HELLO",ascii "3"],[ascii "INCR",ascii "k"],
        [ascii "HELLO",ascii "3"],[ascii "INCR",ascii "k"]] ∧
      (r.2.world.served.map Prod.snd).getLast?=some (ascii ":2\r\n") := by
  decide +kernel

theorem executedOnce_iff_steady :
    let tools := tools false
    let args := (redisCommand ["INCR","k"]).2
    let l := link []
    let r := tools.perform Remote.net 50 (tools.callTool args (ascii "redis_command")) l
    RedisTools.ExecutedOnce (l.copies r.2) (RedisTools.reportsSuccess r.1) ∧
      ¬∃ argv out next,tools.callTool args (ascii "redis_command")=.send argv out next ∧
        tools.Resent 50 argv out l := by
  have hiff := RedisTools.executedOnce_iff 50 (tools false) (.inl rfl)
    (redisCommand ["INCR","k"]).2 (link [])
  exact and_iff_left_of_imp hiff.mp |>.mpr (by decide +kernel)

end Reference

end Mnemos
