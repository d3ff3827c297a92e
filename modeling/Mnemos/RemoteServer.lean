import Mnemos.Bystanders
import Mnemos.McpTools

/-!
# Rules for the client's program

What holds after a part of the client's program, when it comes back and when it
does not, and what the record of a link says after a command: one more entry
that has an answer exactly when the command succeeded, and a link that is still
there then.
-/

namespace Mnemos

namespace Talk

variable {W A B : Type}

/-- What holds after a part of the program: of its result, or when it does not come back. -/
def Ensures (c : Talk W A) (l : Link W) (Q : A → Link W → Prop) (H : Link W → Prop) : Prop :=
  match c l with
  | (.ok a,l') => Q a l'
  | (.error _,l') => H l'

namespace Ensures

variable {c : Talk W A} {l : Link W} {Q Q' : A → Link W → Prop} {H H' : Link W → Prop}

theorem mono (h : Ensures c l Q H) (hq : ∀ a l',Q a l' → Q' a l') (hh : ∀ l',H l' → H' l') :
    Ensures c l Q' H' := by
  unfold Ensures at h ⊢
  split at h
  · exact hq _ _ h
  · exact hh _ h

theorem bind {f : A → Talk W B} {Q : B → Link W → Prop}
    (h : Ensures c l (fun a l' => Ensures (f a) l' Q H) H) : Ensures (c >>= f) l Q H := by
  change Ensures (fun l => match c l with
    | (.ok a,l) => f a l
    | (.error halt,l) => (.error halt,l)) l Q H
  unfold Ensures at h ⊢
  dsimp only
  cases hcl : c l with
  | mk result l' =>
    rw [hcl] at h
    cases result with
    | error halt => exact h
    | ok a => exact h

theorem of_ok {a : A} {l' : Link W} (h : Ensures c l Q H) (hc : c l=(.ok a,l')) : Q a l' := by
  unfold Ensures at h
  rw [hc] at h
  exact h

theorem of_error {halt : Halt} {l' : Link W} (h : Ensures c l Q H) (hc : c l=(.error halt,l')) :
    H l' := by
  unfold Ensures at h
  rw [hc] at h
  exact h

theorem link {Q : Link W → Link W → Prop} (h : Q l l) : Ensures Talk.link l Q H := h

theorem modifyClient {Q : Unit → Link W → Prop} {f : RespClient → RespClient}
    (h : Q () { l with client := f l.client }) : Ensures (Talk.modifyClient f) l Q H := h

theorem system {f : W → A×W} (h : Q (f l.world).1 { l with world := (f l.world).2 }) :
    Ensures (Talk.system f) l Q H := h

theorem began {Q : Unit → Link W → Prop} {e : Sent W} (h : Q () { l with sent := l.sent++[e] }) :
    Ensures (Talk.began e) l Q H := h

theorem went {Q : Unit → Link W → Prop} {e : Sent W}
    (h : Q () { l with sent := l.sent.dropLast++[e] }) : Ensures (Talk.went e) l Q H := h

end Ensures

theorem bind_ok {c : Talk W A} {f : A → Talk W B} {l l' : Link W} {a : A} (h : c l=(.ok a,l')) :
    (c >>= f) l=f a l' := by
  change (match c l with
    | (.ok a,l) => f a l
    | (.error halt,l) => (.error halt,l))=_
  rw [h]

theorem bind_error {c : Talk W A} {f : A → Talk W B} {l l' : Link W} {halt : Halt}
    (h : c l=(.error halt,l')) : (c >>= f) l=(.error halt,l') := by
  change (match c l with
    | (.ok a,l) => f a l
    | (.error halt,l) => (.error halt,l))=_
  rw [h]

end Talk

namespace RespClient

open Talk

variable {W : Type} (net : Net W)

def closed (l : Link W) : Link W :=
  { l with
    client := { l.client with connected := false, buf := [] }
    world := if l.client.connected then net.close l.world else l.world }

theorem close_apply (l : Link W) : close net l=(.ok (),closed net l) := by
  obtain ⟨⟨connected,buf,protover⟩,world,sent⟩ := l
  cases connected with
  | false => rfl
  | true => rfl

theorem close_meets {Q : Unit → Link W → Prop} {H : Link W → Prop} {l : Link W}
    (h : Q () (closed net l)) : Ensures (close net) l Q H := by
  unfold Ensures
  rw [close_apply]
  exact h

theorem connect_record (host : Bytes) (port : ℤ) (l : Link W) :
    Ensures (connect net host port) l
      (fun r l' => l'.sent=l.sent ∧ (r=none → l'.client.connected=true)) fun _ => False := by
  refine .bind (close_meets net (.bind (.system ?_)))
  split
  · exact ⟨rfl,fun h => absurd h (Option.some_ne_none _)⟩
  · exact ⟨rfl,fun h => absurd h (Option.some_ne_none _)⟩
  · exact ⟨rfl,fun _ => rfl⟩

theorem sendAll_record (fuel : ℕ) (bytes : Bytes) (l : Link W) :
    Ensures (sendAll net fuel bytes) l (fun r l' => l'.sent=l.sent ∧ (r=none → l'.client=l.client))
      fun l' => l'.sent=l.sent := by
  fun_induction sendAll net fuel bytes generalizing l with
  | case1 => exact ⟨rfl,fun _ => rfl⟩
  | case2 => exact rfl
  | case3 fuel b bytes ih ih' =>
    refine .bind (.system ?_)
    split
    · exact ih _ _
    · exact ih' _
    · exact .bind (close_meets net ⟨rfl,fun h => absurd h (Option.some_ne_none _)⟩)
    · exact .bind (close_meets net ⟨rfl,fun h => absurd h (Option.some_ne_none _)⟩)

variable [FloatText]

theorem readLoop_record (fuel : ℕ) : ∀ (out : ReplyObject) (l : Link W),
    Ensures (readLoop net fuel out) l
      (fun r l' => l'.sent=l.sent ∧ (r.1=none → l'.client.connected=l.client.connected))
      fun l' => l'.sent=l.sent := by
  induction fuel with
  | zero => exact fun _ _ => rfl
  | succ fuel ih =>
    intro out l
    refine .bind (.link ?_)
    split
    · exact ⟨rfl,fun _ => rfl⟩
    · exact .bind (close_meets net ⟨rfl,fun h => absurd h (Option.some_ne_none _)⟩)
    · exact rfl
    · refine .bind (.system ?_)
      split
      · exact .bind (.modifyClient (ih _ _))
      · exact ih _ _
      · exact .bind (close_meets net ⟨rfl,fun h => absurd h (Option.some_ne_none _)⟩)
      · exact .bind (close_meets net ⟨rfl,fun h => absurd h (Option.some_ne_none _)⟩)

def OneMore (own : Bool) (argv : List Bytes) (answered : Bool) (l l' : Link W) : Prop :=
  ∃ e,l'.sent=l.sent++[e] ∧ e.own=own ∧ e.argv=argv ∧ e.answer.isSome=answered

theorem command_record (fuel : ℕ) (own : Bool) (argv : List Bytes) (out : ReplyObject)
    {l : Link W} (h : l.client.connected=true) :
    Ensures (command net fuel own argv out) l
      (fun r l' => OneMore own argv r.1.isNone l l' ∧ (r.1=none → l'.client.connected=true))
      (OneMore own argv false l) := by
  refine .bind (.link ?_)
  rw [if_pos h]
  refine .bind (.began (.bind ((sendAll_record net fuel _ _).mono (fun failed l₁ hsent => ?_)
    fun l₁ hsent => ⟨_,hsent,rfl,rfl,rfl⟩)))
  cases failed with
  | some error => exact ⟨⟨_,hsent.1,rfl,rfl,rfl⟩,fun h => absurd h (Option.some_ne_none _)⟩
  | none =>
    have hconnected : l₁.client.connected=true := (congrArg connected (hsent.2 rfl)).trans h
    have hlast : l₁.sent.dropLast=l.sent := by
      rw [hsent.1]
      exact List.dropLast_concat
    refine .bind (.link (.bind (.went (.bind (.bind (.link ?_))))))
    rw [if_pos hconnected]
    refine (readLoop_record net fuel out _).mono (fun r l₂ hread => ?_)
      fun l₂ hread => ⟨_,hread.trans (congrArg (·++[_]) hlast),rfl,rfl,rfl⟩
    have hsent₂ := hread.1.trans (congrArg (·++[_]) hlast)
    obtain ⟨failed,o⟩ := r
    cases failed with
    | some error => exact ⟨⟨_,hsent₂,rfl,rfl,rfl⟩,fun h => absurd h (Option.some_ne_none _)⟩
    | none =>
      refine ⟨⟨_,congrArg (·++[_]) ?_,rfl,rfl,rfl⟩,fun _ => (hread.2 rfl).trans hconnected⟩
      rw [hsent₂]
      exact List.dropLast_concat

end RespClient

/-! ## A mnemos server at the other end of a link -/

inductive Fault where
  | interrupted
  | closed
  /-- Any other error and the timeout, with the text of `strerror`. -/
  | failed (reason : Bytes)

structure Move where
  now : ℤ
  others : List ServerStep := []
  fault : Option Fault := none
  cut : Bool := false
  /-- The number of bytes after the first that one call transfers at most. -/
  more : ℕ
  fd : ℕ
  addr : Bytes := []

structure Remote where
  server : Server
  moves : Stream' Move
  fd : Option ℕ := none
  query : Request.QueryState := .init
  /-- The number of bytes of the server's output that have left it. -/
  taken : ℕ := 0
  down : Bytes := []
  cut : Bool := false
  /-- The client's commands that the server has executed, with its output for each. -/
  served : List (List Bytes×Bytes) := []

def Sent.executed (e : Sent Remote) : Bool :=
  e.after.any fun w => (w.served.drop e.before.served.length).any fun x => x.1=e.argv

namespace Remote

def kReadChunk : ℕ := 16*1024

def up (w : Remote) : Bool := w.server.alive && w.server.running

def settle (w : Remote) : Remote := if w.up then w else { w with fd := none }

def collect (w : Remote) : Remote :=
  match w.fd with
  | none => w
  | some fd =>
    let output := (w.server.clientAt fd).output
    { w with down := w.down++output.drop w.taken, taken := output.length }

variable [Platform]

def advance (w : Remote) : Remote :=
  let move := w.moves.head
  let others := move.others.filter fun step => w.fd.isNone || step.actor≠w.fd
  let w := { w with moves := w.moves.tail, cut := w.cut || move.cut }
  if w.up then ({ w with server := w.server.run others }.collect).settle else w

def serve (now : ℤ) (w : Remote) (argv : List Bytes) : Remote :=
  match w.fd with
  | none => w
  | some fd =>
    if argv=[] then w
    else
      let s := w.server.dispatch now fd argv
      let output := (s.clientAt fd).output
      let served := w.served++[(argv,output.drop w.taken)]
      let done := { w with server := s, served := served }
      -- a process that an exception ended does not flush
      if s.alive=false then { done with fd := none }
      else if (s.clientAt fd).closeAfterReply then
        { done.collect with server := s.closeClient fd, fd := none }
      else done.collect.settle

def refuse (text : Bytes) (w : Remote) : Remote :=
  match w.fd with
  | none => w
  | some fd =>
    let error := Token.encode (w.server.clientAt fd).protover (.error text)
    { w with server := w.server.closeClient fd, fd := none, down := w.down++error }

def receive (now : ℤ) (bytes : Bytes) (w : Remote) : Remote :=
  if w.fd.isNone || w.cut then w
  else
    match w.query.feed (w.query.buffer.length+bytes.length+1) bytes with
    | none => { w with cut := true } -- the server never comes back
    | some (commands,status,query) =>
      let w := commands.foldl (serve now) { w with query := query }
      match status with
      | .error text => w.refuse text
      | _ => w

def accept (move : Move) (w : Remote) : Remote :=
  let s := w.server.accept move.now move.fd move.addr
  let w := { w with server := s, query := .init, taken := 0, down := [], cut := false }
  if (s.clients move.fd).isSome then { w with fd := some move.fd }
  else { w with fd := none, down := ascii "-ERR max number of clients reached\r\n" }

def connect (w : Remote) : ConnectResult×Remote :=
  let move := w.moves.head
  let w := w.advance
  match move.fault with
  | some (.failed reason) => (.refused (some reason),w)
  | some _ => (.refused none,w)
  | none =>
    if w.up && (w.server.clients move.fd).isNone then (.connected,w.accept move)
    else (.refused none,w)

def send (bytes : Bytes) (w : Remote) : SendResult×Remote :=
  let move := w.moves.head
  let w := w.advance
  match move.fault with
  | some .interrupted => (.interrupted,w)
  | some .closed => (.closed,w)
  | some (.failed reason) => (.failed reason,w)
  | none => (.sent move.more,w.receive move.now (bytes.take (move.more+1)))

def recv (w : Remote) : RecvResult×Remote :=
  let move := w.moves.head
  let w := w.advance
  match move.fault with
  | some .interrupted => (.interrupted,w)
  | some .closed => (.closed,w)
  | some (.failed reason) => (.failed reason,w)
  | none =>
    let timeout := RecvResult.failed (ascii "Resource temporarily unavailable")
    if w.cut then (timeout,w)
    else
      match w.down with
      | first::rest =>
        let more := min move.more (kReadChunk-1)
        (.received first (rest.take more),{ w with down := rest.drop more })
      | [] => if w.fd.isNone then (.closed,w) else (timeout,w)

def close (w : Remote) : Remote :=
  match w.fd with
  | none => w
  | some fd =>
    let server := if w.cut then w.server else w.server.closeClient fd
    { w with server := server, fd := none, down := [] }

def net : Net Remote := ⟨connect,send,recv,close⟩

def fresh (server : Server) (moves : Stream' Move) : Link Remote :=
  { client := {}, world := { server := server, moves := moves } }

end Remote

/-! ## Reference calls -/

namespace ToolReference

@[reducible] def arithmetic : ToolArithmetic where
  toLong := DoubleText.wholePart
  overThousand := fun d => DoubleText.ofInt (DoubleText.wholePart d/1000)

def move : Move where
  now := 1000
  more := 16*1024
  fd := 7

def tools (readOnly : Bool) : RedisTools where
  host := ascii "127.0.0.1"
  port := 6380
  db := 0
  readOnly := readOnly

def redisCommand (argv : List String) : Bytes×Json :=
  (ascii "redis_command",.object [(ascii "argv",.array (argv.map fun a => .string (ascii a)))])

/-- A link to the reference server with these moves, and no other fault later. -/
def link [FloatText] (moves : List Move) : Link Remote :=
  Remote.fresh PlatformReference.started (moves++ₛStream'.const move)

end ToolReference

end Mnemos
