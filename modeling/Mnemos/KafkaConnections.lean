import Mnemos.KafkaWire

/-!
# Connections of the Kafka listener

The loop of `kafka/main.cpp` as one connection sees it, for any broker. Other
connections reach it only through the broker, so the broker's state may become
any other between two events.
-/

open List

namespace Mnemos.Kafka

def kMaxFrameSize : ℕ := 100*1024*1024

/-- Actual `Broker::Outcome`. -/
inductive Outcome where
  | respond (response : Bytes)
  | silence
  | retry (maxWaitMs : ℤ)
  | close

/-- What a call of `read` or `write` returns; `failed` is also the end of the stream. -/
inductive Io (α : Type) where
  | done (a : α)
  | interrupted
  | blocked
  | failed

/-- A connection with the broker's state and its socket. A buffer is what the source has in it
after its cursor, `in_pos` or `out_sent`. -/
structure Conn (B : Type) where
  broker : B
  input : Bytes := []
  out : Bytes := []
  /-- Actual `parked_frame` with `parked_deadline_ms`. -/
  parked : Option (Bytes×ℤ) := none
  /-- The coming calls of `write`, with the number of bytes after the first; then they block. -/
  writes : List (Io ℕ) := []
  received : Bytes := []
  sent : Bytes := []

/-- How a connection ends: it is erased, or the code goes on with it after that. -/
inductive Gone where
  | closed
  | dangling

inductive Event (B : Type) where
  | readable (reads : List (Io Bytes)) (writes : List (Io ℕ)) (now : ℤ)
  | writable (writes : List (Io ℕ))
  /-- The timer, with the time of the call and that of a fetch parked in it. -/
  | tick (now later : ℤ) (writes : List (Io ℕ))
  | others (broker : B)

def Event.writes {B : Type} : Event B → List (Io ℕ)
  | .readable _ writes _ | .writable writes | .tick _ _ writes => writes
  | .others _ => []

namespace Conn

variable {B : Type}

def onWritable : List (Io ℕ) → Conn B → Except Gone (Conn B)
  | [],c => .ok { c with writes := [] }
  | result::results,c =>
    if c.out=[] then .ok { c with writes := result::results }
    else
      match result with
      | .done n => onWritable results
          { c with out := c.out.drop (n+1), sent := c.sent++c.out.take (n+1) }
      | .interrupted => onWritable results c
      | .blocked => .ok { c with writes := results }
      | .failed => .error .closed

def queue (c : Conn B) (bytes : Bytes) : Except Gone (Conn B) :=
  onWritable c.writes { c with out := c.out++bytes }

/-- A failed write erases the connection, but the answer is still that it is there. -/
def applyOutcome (c : Conn B) (now : ℤ) (frame : Bytes) : Outcome → Except Gone (Conn B)
  | .respond response => (c.queue response).mapError fun _ => .dangling
  | .silence => .ok c
  | .retry maxWaitMs => .ok { c with parked := some (frame,now+maxWaitMs) }
  | .close => .error .closed

def readLoop : List (Io Bytes) → Conn B → Except Gone (Conn B)
  | [],c | .blocked::_,c => .ok c
  | .interrupted::results,c => readLoop results c
  | .failed::_,_ => .error .closed
  | .done bytes::results,c =>
    let c := { c with input := c.input++bytes, received := c.received++bytes }
    if bytes.length < 65536 then .ok c else readLoop results c

variable (handle : Bytes → Bool → B → Outcome×B)

def drainLoop (now : ℤ) : ℕ → Conn B → Except Gone (Conn B)
  | 0,c => .ok c
  | fuel+1,c =>
    if c.parked.isSome∨c.input.length < 4 then .ok c
    else
      let size := beValue (c.input.take 4)
      if size=0∨kMaxFrameSize < size then .error .closed
      else if c.input.length-4 < size then .ok c
      else
        let frame := (c.input.drop 4).take size
        let (outcome,broker) := handle frame true c.broker
        applyOutcome { c with input := (c.input.drop 4).drop size, broker } now frame outcome >>=
          drainLoop now fuel

def drainRequests (now : ℤ) (c : Conn B) : Except Gone (Conn B) :=
  drainLoop handle now (c.input.length+1) c

def onReadable (reads : List (Io Bytes)) (now : ℤ) (c : Conn B) : Except Gone (Conn B) :=
  readLoop reads c >>= drainRequests handle now

def pollParked (now later : ℤ) (c : Conn B) : Except Gone (Conn B) :=
  match c.parked with
  | none => .ok c
  | some (frame,deadline) =>
    let (outcome,broker) := handle frame (now < deadline) c.broker
    match outcome,decide (now < deadline) with
    | .retry _,true => .ok { c with broker }
    | outcome,_ =>
      applyOutcome { c with parked := none, broker } later frame outcome >>=
        drainRequests handle later

def step (c : Conn B) : Event B → Except Gone (Conn B)
  | .readable reads writes now => onReadable handle reads now { c with writes }
  | .writable writes => onWritable writes c
  | .tick now later writes => pollParked handle now later { c with writes }
  | .others broker => .ok { c with broker }

def run (c : Conn B) (events : List (Event B)) : Except Gone (Conn B) :=
  events.foldlM (step handle) c

/-! ## The order of the answers -/

def framed (frame : Bytes) : Bytes := beBytes 4 frame.length++frame

def Complete (bytes : Bytes) : Prop := 4 ≤ bytes.length∧beValue (bytes.take 4) ≤ bytes.length-4

/-- The requests received are those of the log, each with its answer if it has one, and the one
`taken` but not answered yet; the answers are sent or queued in the same order. -/
structure Orderly (c : Conn B) (taken : Option Bytes) (log : List (Bytes×Option Bytes)) : Prop where
  received : c.received=(log.map Prod.fst++taken.toList).flatMap framed++c.input
  answered : c.sent++c.out=log.flatMap fun x => x.2.getD []
  handled : ∀ x∈log,∃ wait b,(handle x.1 wait b).1=x.2.elim .silence .respond

/-- Between two steps of a connection of which `failed` says that a write failed. -/
def Stands (failed : Prop) (c : Conn B) : Prop :=
  (.failed∈c.writes → failed)∧∃ log,Orderly handle c (c.parked.map Prod.fst) log

/-- Between two events: moreover, a whole request only waits behind a parked one. -/
def Idle (failed : Prop) (c : Conn B) : Prop :=
  Stands handle failed c∧(c.parked=none → ¬Complete c.input)

def Serves (lost : Gone → Prop) (post : Conn B → Prop) : Except Gone (Conn B) → Prop
  | .ok c => post c
  | .error e => lost e

theorem accepted_idle (failed : Prop) (broker : B) : Idle handle failed { broker } :=
  ⟨⟨nofun,[],rfl,rfl,nofun⟩,fun _ hc => nomatch hc.1⟩

variable {handle} {failed : Prop} {c : Conn B} {log : List (Bytes×Option Bytes)}

theorem Serves.bind {lost : Gone → Prop} {post post' : Conn B → Prop} {r : Except Gone (Conn B)}
    {f : Conn B → Except Gone (Conn B)} (h : Serves lost post r)
    (hf : ∀ c,post c → Serves lost post' (f c)) : Serves lost post' (r >>= f) :=
  match r,h with
  | .ok c,h => hf c h
  | .error _,h => h

theorem onWritable_serves (ws : List (Io ℕ)) (hw : .failed∈ws → failed) (c : Conn B) :
    Serves (fun _ => failed) (fun d => (.failed∈d.writes → failed)∧d.sent++d.out=c.sent++c.out∧
      d={ c with out := d.out, writes := d.writes, sent := d.sent }) (onWritable ws c) := by
  induction ws generalizing c with
  | nil => exact ⟨hw,rfl,rfl⟩
  | cons result ws ih =>
    have hnext := ih fun h => hw (mem_cons_of_mem _ h)
    unfold onWritable
    split
    · exact ⟨hw,rfl,rfl⟩
    cases result with
    | done n =>
      have h := hnext { c with out := c.out.drop (n+1), sent := c.sent++c.out.take (n+1) }
      rwa [append_assoc,take_append_drop] at h
    | interrupted => exact hnext c
    | blocked => exact ⟨fun h => hw (mem_cons_of_mem _ h),rfl,rfl⟩
    | failed => exact hw mem_cons_self

/-- Any outcome of the broker for the request taken last keeps the order. -/
theorem Orderly.apply {frame : Bytes} {outcome : Outcome} (h : Orderly handle c (some frame) log)
    (hp : c.parked=none) (hw : .failed∈c.writes → failed)
    (houtcome : ∃ wait b,(handle frame wait b).1=outcome) (now : ℤ) :
    Serves (·=.dangling → failed) (fun d => Stands handle failed d∧d.input=c.input)
      (c.applyOutcome now frame outcome) := by
  have hlog (answer : Option Bytes) {d : Conn B}
      (ha : ∃ wait b,(handle frame wait b).1=answer.elim .silence .respond)
      (hout : d.sent++d.out=c.sent++c.out++answer.getD [])
      (hd : d={ c with out := d.out, writes := d.writes, sent := d.sent }) :
      Orderly handle d (d.parked.map Prod.fst) (log++[(frame,answer)]) := by
    refine ⟨?_,?_,forall_mem_append.2 ⟨h.handled,forall_mem_singleton.2 ha⟩⟩
    · rw [hd]
      simpa [hp] using h.received
    · rw [hout,h.answered]
      simp
  cases outcome with
  | respond response =>
    have hsend := onWritable_serves c.writes hw { c with out := c.out++response }
    rw [applyOutcome,queue]
    generalize onWritable c.writes { c with out := c.out++response }=r at hsend
    cases r with
    | error e => exact fun _ => hsend
    | ok d =>
      obtain ⟨hwrites,hout,hd⟩ := hsend
      rw [← append_assoc] at hout
      exact ⟨⟨hwrites,_,hlog (some response) houtcome hout hd⟩,by rw [hd]⟩
  | silence => exact ⟨⟨hw,_,hlog none houtcome (append_nil _).symm rfl⟩,rfl⟩
  | retry maxWaitMs => exact ⟨⟨hw,log,h.received,h.answered,h.handled⟩,rfl⟩
  | close => exact nofun

/-- The first request of the input, as the loop takes it. -/
theorem Complete.split {bytes : Bytes} (h : Complete bytes) :
    framed ((bytes.drop 4).take (beValue (bytes.take 4)))++
      (bytes.drop 4).drop (beValue (bytes.take 4))=bytes := by
  have hhead := leBytes_leValue (bytes.take 4).reverse
  rw [length_reverse,length_take_of_le h.1] at hhead
  rw [framed,length_take_of_le (length_drop ▸ h.2),beBytes,beValue,hhead,reverse_reverse,
    append_assoc,take_append_drop,take_append_drop]

theorem drainLoop_idle (now : ℤ) (fuel : ℕ) (c : Conn B) (h : Stands handle failed c)
    (hfuel : c.input.length < fuel) :
    Serves (·=.dangling → failed) (Idle handle failed) (drainLoop handle now fuel c) := by
  induction fuel generalizing c with
  | zero => exact absurd hfuel (Nat.not_lt_zero _)
  | succ fuel ih =>
    rw [drainLoop]
    split
    · next hstop =>
      exact ⟨h,fun hp hc => by rw [hp] at hstop; exact hstop.elim nofun (not_lt.2 hc.1)⟩
    next hgo =>
    obtain ⟨hp,hfour⟩ := not_or.1 hgo
    rw [Option.not_isSome_iff_eq_none] at hp
    dsimp only
    split
    · exact nofun
    split
    · next hshort => exact ⟨h,fun _ hc => not_lt.2 hc.2 hshort⟩
    next hshort =>
    obtain ⟨hw,log,hlog⟩ := h
    have hsplit := Complete.split ⟨not_lt.1 hfour,not_lt.1 hshort⟩
    have htaken (broker : B) : Orderly handle
        { c with input := (c.input.drop 4).drop (beValue (c.input.take 4)), broker }
        (some ((c.input.drop 4).take (beValue (c.input.take 4)))) log := by
      have hreceived := hlog.received
      rw [← hsplit,hp] at hreceived
      exact ⟨by simpa using hreceived,hlog.answered,hlog.handled⟩
    refine ((htaken _).apply hp hw ⟨_,_,rfl⟩ now).bind fun d hd => ih d hd.1 ?_
    rw [hd.2,length_drop,length_drop]
    omega

theorem drainRequests_idle (now : ℤ) (c : Conn B) (h : Stands handle failed c) :
    Serves (·=.dangling → failed) (Idle handle failed) (drainRequests handle now c) :=
  drainLoop_idle now _ c h (Nat.lt_succ_self _)

theorem readLoop_stands (reads : List (Io Bytes)) (c : Conn B) (h : Stands handle failed c) :
    Serves (·=.dangling → failed) (Stands handle failed) (readLoop reads c) := by
  induction reads generalizing c with
  | nil => exact h
  | cons result reads ih =>
    cases result with
    | done bytes =>
      obtain ⟨hw,log,hlog⟩ := h
      have hdata : Stands handle failed
          { c with input := c.input++bytes, received := c.received++bytes } :=
        ⟨hw,log,by rw [hlog.received,append_assoc],hlog.answered,hlog.handled⟩
      rw [readLoop]
      split
      · exact hdata
      · exact ih _ hdata
    | interrupted => exact ih c h
    | blocked => exact h
    | failed => exact nofun

theorem pollParked_idle (now later : ℤ) (c : Conn B) (h : Idle handle failed c) :
    Serves (·=.dangling → failed) (Idle handle failed) (pollParked handle now later c) := by
  unfold pollParked
  split
  · exact h
  next frame deadline hp =>
  obtain ⟨⟨hw,log,hlog⟩,hdone⟩ := h
  dsimp only
  split
  · exact ⟨⟨hw,log,hlog.received,hlog.answered,hlog.handled⟩,hdone⟩
  · rw [hp] at hlog
    have htaken (broker : B) : Orderly handle { c with parked := none, broker } (some frame) log :=
      ⟨hlog.received,hlog.answered,hlog.handled⟩
    exact ((htaken _).apply rfl hw ⟨_,_,rfl⟩ later).bind fun d hd => drainRequests_idle later d hd.1

theorem step_idle (e : Event B) (h : Idle handle failed c) (he : .failed∈e.writes → failed) :
    Serves (·=.dangling → failed) (Idle handle failed) (step handle c e) := by
  obtain ⟨⟨hw,log,hlog⟩,hdone⟩ := h
  have hlog' (writes : List (Io ℕ)) :
      Orderly handle { c with writes } (c.parked.map Prod.fst) log :=
    ⟨hlog.received,hlog.answered,hlog.handled⟩
  cases e with
  | readable reads writes now =>
    exact (readLoop_stands reads _ ⟨he,log,hlog' writes⟩).bind fun d => drainRequests_idle now d
  | writable writes =>
    have hsend := onWritable_serves writes he c
    rw [step]
    generalize onWritable writes c=r at hsend
    cases r with
    | error e => exact fun _ => hsend
    | ok d =>
      obtain ⟨hwrites,hout,hd⟩ := hsend
      have hidle : Idle handle failed { c with out := d.out, writes := d.writes, sent := d.sent } :=
        ⟨⟨hwrites,log,hlog.received,hout.trans hlog.answered,hlog.handled⟩,hdone⟩
      exact hd ▸ hidle
  | tick now later writes => exact pollParked_idle now later _ ⟨⟨he,log,hlog' writes⟩,hdone⟩
  | others broker => exact ⟨⟨hw,log,hlog.received,hlog.answered,hlog.handled⟩,hdone⟩

theorem run_idle (events : List (Event B)) (c : Conn B) (h : Idle handle failed c)
    (he : ∀ e∈events,.failed∈e.writes → failed) :
    Serves (·=.dangling → failed) (Idle handle failed) (run handle c events) := by
  induction events generalizing c with
  | nil => exact h
  | cons e events ih =>
    rw [forall_mem_cons] at he
    rw [run,foldlM_cons]
    exact (step_idle e h he.1).bind fun d hd => ih d hd he.2

variable {broker : B} {events : List (Event B)}

/-- Every request is handled once and answered in its turn, whatever the other connections do. -/
theorem answers_in_order (h : run handle { broker } events=.ok c) : ∃ log,
    Orderly handle c (c.parked.map Prod.fst) log∧(c.parked=none → ¬Complete c.input) := by
  have hrun := run_idle events _ (accepted_idle handle True broker) fun _ _ _ => trivial
  rw [h] at hrun
  obtain ⟨⟨-,log,hlog⟩,hdone⟩ := hrun
  exact ⟨log,hlog,hdone⟩

/-- A fetch that waits until the broker's state is not zero. -/
def fetching (frame : Bytes) (wait : Bool) (n : ℕ) : Outcome×ℕ :=
  (if frame=[1]∧wait∧n=0 then .retry 10 else .respond frame,n)

def fetchThenMore : List (Event ℕ) :=
  [.readable [.done (framed [1]++framed [2])] [] 0,.others 1,.tick 5 5 [.done 0]]

theorem answers_in_order_fetch : ∃ c log,run fetching { broker := 0 } fetchThenMore=.ok c∧
    (c.sent,c.out)=([1],[2])∧Orderly fetching c (c.parked.map Prod.fst) log := by
  have h : run fetching { broker := 0 } fetchThenMore=.ok _ := rfl
  obtain ⟨log,hlog,-⟩ := answers_in_order h
  exact ⟨_,log,h,rfl,hlog⟩

end Conn

end Mnemos.Kafka
