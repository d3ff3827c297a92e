import Mathlib.Tactic.IntervalCases
import Mnemos.Bytes

/-!
# LZF compression

The compressor and the decompressor as the source runs them, over indices into
an input and an output buffer.
-/

namespace Mnemos.Lzf

def maxLit : ℕ := 32

def maxOff : ℕ := 8192

def maxRef : ℕ := 264

inductive Stop where
  | fault
  /-- The source's `return 0`. -/
  | giveUp
deriving DecidableEq,Repr

def fetch (buffer : Bytes) (i : ℕ) : Except Stop UInt8 :=
  match buffer[i]? with
  | some b => .ok b
  | none => .error .fault

def store (buffer : Bytes) (i : ℕ) (b : UInt8) : Except Stop Bytes :=
  if i < buffer.length then .ok (buffer.set i b) else .error .fault

def hashFirst (a b : UInt8) : UInt32 := (a.toUInt32 <<< 8)|||b.toUInt32

def hashNext (v : UInt32) (c : UInt8) : UInt32 := (v <<< 8)|||c.toUInt32

def hashIndex (h : UInt32) : ℕ := (((h >>> 8)-h*5)&&&0xFFFF).toNat

structure State where
  ip : ℕ
  op : ℕ
  lit : ℕ
  hval : UInt32
  /-- Last position seen for each hash, as an `uint32`. -/
  htab : ℕ → ℕ
  out : Bytes

/-- Writing the length of the open run into its control byte; zero wraps to 255. -/
def closeRun (s : State) : Except Stop State :=
  if s.op < s.lit+1 then .error .fault
  else do
    let out ← store s.out (s.op-s.lit-1) (UInt8.ofNat (s.lit+255))
    pure { s with out := out }

def copyLiteral (input : Bytes) (s : State) : Except Stop State := do
  let b ← fetch input s.ip
  let out ← store s.out s.op b
  let s := { s with ip := s.ip+1, op := s.op+1, lit := s.lit+1, out := out }
  if s.lit=maxLit then
    let s ← closeRun s
    pure { s with lit := 0, op := s.op+1 }
  else pure s

/-- The sixteen unrolled comparisons: the length reached and whether they ended the match. -/
def unrolled (input : Bytes) (ref ip : ℕ) : ℕ → ℕ → Except Stop (ℕ×Bool)
  | 0,len => pure (len,false)
  | n+1,len => do
    let a ← fetch input (ref+(len+1))
    let b ← fetch input (ip+(len+1))
    if a≠b then pure (len+1,true) else unrolled input ref ip n (len+1)

def guarded (input : Bytes) (ref ip maxlen : ℕ) : ℕ → ℕ → Except Stop ℕ
  | 0,len => pure len
  | fuel+1,len =>
    if len+1 < maxlen then do
      let a ← fetch input (ref+(len+1))
      let b ← fetch input (ip+(len+1))
      if a=b then guarded input ref ip maxlen fuel (len+1) else pure (len+1)
    else pure (len+1)

def matchLength (input : Bytes) (ref ip : ℕ) : Except Stop ℕ := do
  let maxlen := min (input.length-ip-2) maxRef
  if 16 < maxlen then
    let (len,broke) ← unrolled input ref ip 16 2
    if broke then pure len else guarded input ref ip maxlen maxlen len
  else guarded input ref ip maxlen maxlen 2

/-- Writing a back reference; `len` counts the bytes beyond the first two. -/
def writeReference (off len : ℕ) (s : State) : Except Stop State :=
  if len < 7 then do
    let out ← store s.out s.op (UInt8.ofNat (off/256+len*32))
    let out ← store out (s.op+1) (UInt8.ofNat off)
    pure { s with op := s.op+2, out := out }
  else do
    let out ← store s.out s.op (UInt8.ofNat (off/256+7*32))
    let out ← store out (s.op+1) (UInt8.ofNat (len-7))
    let out ← store out (s.op+2) (UInt8.ofNat off)
    pure { s with op := s.op+3, out := out }

/-- Entering the two positions before `ip` into the table after a match. -/
def reindex (input : Bytes) (s : State) : Except Stop State := do
  let a ← fetch input (s.ip-2)
  let b ← fetch input (s.ip-1)
  let c ← fetch input s.ip
  let d ← fetch input (s.ip+1)
  let hval := hashNext (hashFirst a b) c
  let htab := Function.update s.htab (hashIndex hval) ((s.ip-2)%2^32)
  let hval := hashNext hval d
  let htab := Function.update htab (hashIndex hval) ((s.ip-1)%2^32)
  pure { s with hval := hval, htab := htab }

/-- The two tests whether a reference may not fit; an empty run gives its control byte back. -/
def outOfRoom (s : State) : Bool :=
  s.out.length ≤ s.op+4 && s.out.length+(if s.lit=0 then 1 else 0) ≤ s.op+4

/-- The body of a match: close the run, measure, write and move on. True leaves the loop. -/
def takeMatch (input : Bytes) (ref : ℕ) (s : State) : Except Stop (Bool×State) := do
  if outOfRoom s then .error .giveUp
  else
    let s ← closeRun s
    let s := if s.lit=0 then { s with op := s.op-1 } else s
    let len ← matchLength input ref s.ip
    let s ← writeReference (s.ip-ref-1) (len-2) s
    let s := { s with lit := 0, op := s.op+1, ip := s.ip+len }
    if input.length ≤ s.ip+2 then pure (true,s)
    else
      let s ← reindex input s
      pure (false,s)

def compressStep (input : Bytes) (s : State) : Except Stop (Bool×State) := do
  let c ← fetch input (s.ip+2)
  let hval := hashNext s.hval c
  let ref := s.htab (hashIndex hval)
  let s := { s with hval := hval, htab := Function.update s.htab (hashIndex hval) (s.ip%2^32) }
  -- the source compares the third byte first
  if ref < s.ip && s.ip-ref-1 < maxOff && 0 < ref then
    let r2 ← fetch input (ref+2)
    let i0 ← fetch input s.ip
    let r0 ← fetch input ref
    let i1 ← fetch input (s.ip+1)
    let r1 ← fetch input (ref+1)
    if r2=c && r0=i0 && r1=i1 then takeMatch input ref s
    else if s.out.length ≤ s.op then .error .giveUp
    else
      let s ← copyLiteral input s
      pure (false,s)
  else if s.out.length ≤ s.op then .error .giveUp
  else
    let s ← copyLiteral input s
    pure (false,s)

def compressLoop (input : Bytes) : ℕ → State → Except Stop State
  | 0,s => pure s
  | fuel+1,s =>
    if s.ip+2 < input.length then do
      let (leave,s) ← compressStep input s
      if leave then pure s else compressLoop input fuel s
    else pure s

def tailLoop (input : Bytes) : ℕ → State → Except Stop State
  | 0,s => pure s
  | fuel+1,s =>
    if s.ip < input.length then do
      let s ← copyLiteral input s
      tailLoop input fuel s
    else pure s

def shortLoop (input : Bytes) : ℕ → State → Except Stop State
  | 0,s => pure s
  | fuel+1,s =>
    if s.ip < input.length then
      if s.out.length ≤ s.op then .error .giveUp
      else do
        let b ← fetch input s.ip
        let out ← store s.out s.op b
        shortLoop input fuel { s with ip := s.ip+1, op := s.op+1, lit := s.lit+1, out := out }
    else pure s

/-- The compressed bytes, with the source's zero as `giveUp`. -/
def lzfCompress (input : Bytes) (outLen : ℕ) : Except Stop Bytes :=
  if input.length=0 || outLen=0 then .error .giveUp
  else do
    let start : State := ⟨0,1,0,0,fun _ => 0,List.replicate outLen 0⟩
    if input.length ≤ 2 then
      let s ← shortLoop input input.length start
      let s ← closeRun s
      pure (s.out.take s.op)
    else
      let a ← fetch input 0
      let b ← fetch input 1
      let s ← compressLoop input input.length { start with hval := hashFirst a b }
      if s.out.length < s.op+3 then .error .giveUp
      else
        let s ← tailLoop input input.length s
        let s ← closeRun s
        pure (s.out.take (if s.lit=0 then s.op-1 else s.op))

def copyBack : ℕ → ℕ → Bytes → Except Stop Bytes
  | 0,_,out => pure out
  | n+1,ref,out => do
    let b ← fetch out ref
    copyBack n (ref+1) (out++[b])

def takeLiteral (capacity count : ℕ) (rest out : Bytes) : Except Stop (Bytes×Bytes) :=
  if capacity < out.length+count then .error .giveUp
  else if rest.length < count then .error .giveUp
  else pure (rest.drop count,out++rest.take count)

def takeReference (capacity ctrl len : ℕ) (rest out : Bytes) : Except Stop (Bytes×Bytes) :=
  match rest with
  | [] => .error .giveUp
  | low::rest =>
    let distance := ctrl%32*256+1+low.toNat
    if capacity < out.length+len+2 then .error .giveUp
    else if out.length < distance then .error .giveUp
    else do
      let out ← copyBack (len+2) (out.length-distance) out
      pure (rest,out)

/-- One control byte with what it governs: the remaining input and the bytes written so far. -/
def decompressStep (capacity : ℕ) (control : UInt8) (rest out : Bytes) :
    Except Stop (Bytes×Bytes) :=
  let ctrl := control.toNat
  if ctrl < 32 then takeLiteral capacity (ctrl+1) rest out
  else if ctrl/32=7 then
    match rest with
    | [] => .error .giveUp
    | extra::rest => takeReference capacity ctrl (7+extra.toNat) rest out
  else takeReference capacity ctrl (ctrl/32) rest out

def decompressLoop (capacity : ℕ) : ℕ → Bytes → Bytes → Except Stop Bytes
  | _,[],out => pure out
  | 0,_::_,_ => .error .fault
  | fuel+1,control::rest,out => do
    let (rest,out) ← decompressStep capacity control rest out
    decompressLoop capacity fuel rest out

/-- The bytes written into a buffer of the given capacity. -/
def lzfDecompress (input : Bytes) (capacity : ℕ) : Except Stop Bytes :=
  decompressLoop capacity input.length input []

/-! ## Compressed data decompresses to the input -/

open List

/-- The call does not fault, and what it returns has the property. -/
def Yields {A : Type} (x : Except Stop A) (P : A → Prop) : Prop :=
  match x with
  | .ok a => P a
  | .error e => e=.giveUp

section Yields

variable {A B : Type} {P : A → Prop} {Q : B → Prop}

theorem Yields.pure {a : A} (h : P a) : Yields (Pure.pure a) P := h

theorem Yields.giveUp : Yields (.error .giveUp : Except Stop A) P := rfl

theorem Yields.bind {x : Except Stop A} {f : A → Except Stop B} (hx : Yields x P)
    (hf : ∀ a,P a → Yields (f a) Q) : Yields (x >>= f) Q := by
  cases x with
  | ok a => exact hf a hx
  | error e => exact hx

theorem Yields.mono {P' : A → Prop} {x : Except Stop A} (hx : Yields x P) (h : ∀ a,P a → P' a) :
    Yields x P' := by
  cases x with
  | ok a => exact h a hx
  | error e => exact hx

end Yields

variable {buffer : Bytes} {i : ℕ}

theorem fetch_yields (h : i < buffer.length) :
    Yields (fetch buffer i) fun b => buffer[i]?=some b := by
  rw [fetch,getElem?_eq_getElem h]
  exact rfl

theorem store_yields (h : i < buffer.length) (b : UInt8) :
    Yields (store buffer i b) fun out => out=buffer.set i b := by
  rw [store,if_pos h]
  exact rfl

section Decompress

variable {capacity : ℕ}

/-- A stream that takes the decompressor from one output to the next, whatever follows it. -/
def Decodes (capacity : ℕ) (stream out out' : Bytes) : Prop :=
  ∀ fuel rest,stream.length+rest.length ≤ fuel → ∃ fuel',rest.length ≤ fuel' ∧
    decompressLoop capacity fuel (stream++rest) out=decompressLoop capacity fuel' rest out'

theorem Decodes.nil (out : Bytes) : Decodes capacity [] out out :=
  fun fuel rest h => ⟨fuel,by rw [length_nil] at h; omega,rfl⟩

theorem Decodes.append {s t out out' out'' : Bytes} (hs : Decodes capacity s out out')
    (ht : Decodes capacity t out' out'') : Decodes capacity (s++t) out out'' := by
  intro fuel rest hfuel
  rw [length_append] at hfuel
  obtain ⟨fuel₁,hfuel₁,hloop₁⟩ := hs fuel (t++rest) (by rw [length_append]; omega)
  rw [length_append] at hfuel₁
  obtain ⟨fuel₂,hfuel₂,hloop₂⟩ := ht fuel₁ rest hfuel₁
  exact ⟨fuel₂,hfuel₂,by rw [append_assoc,hloop₁,hloop₂]⟩

theorem Decodes.of_step {control : UInt8} {body out out' : Bytes}
    (h : ∀ rest,decompressStep capacity control (body++rest) out=.ok (rest,out')) :
    Decodes capacity (control::body) out out' := by
  intro fuel rest hfuel
  rw [length_cons] at hfuel
  cases fuel with
  | zero => omega
  | succ fuel =>
    refine ⟨fuel,by omega,?_⟩
    rw [cons_append,decompressLoop,h rest]
    rfl

theorem Decodes.decompress {stream out : Bytes} (h : Decodes capacity stream [] out) :
    lzfDecompress stream capacity=.ok out := by
  obtain ⟨fuel,-,hloop⟩ := h stream.length [] (by rw [length_nil]; omega)
  rw [append_nil] at hloop
  rw [lzfDecompress,hloop]
  cases fuel <;> rfl

theorem decodes_literal {run out : Bytes} (hpos : 0 < run.length) (hmax : run.length ≤ maxLit)
    (hroom : out.length+run.length ≤ capacity) :
    Decodes capacity (UInt8.ofNat (run.length+255)::run) out (out++run) := by
  have hctrl : (UInt8.ofNat (run.length+255)).toNat=run.length-1 := by
    rw [UInt8.toNat_ofNat']
    unfold maxLit at hmax
    omega
  unfold maxLit at hmax
  refine Decodes.of_step fun rest => ?_
  unfold decompressStep
  dsimp only
  rw [hctrl]
  rw [if_pos (by omega),Nat.sub_add_cancel hpos,takeLiteral,if_neg (by omega),
    if_neg (by rw [length_append]; omega),drop_left,take_left]
  rfl

theorem copyBack_eq {text : Bytes} {n ref p : ℕ} (href : ref < p) (hlen : p+n ≤ text.length)
    (hsame : ∀ i < n,text[ref+i]?=text[p+i]?) :
    copyBack n ref (text.take p)=.ok (text.take (p+n)) := by
  induction n generalizing ref p with
  | zero => rfl
  | succ n ih =>
    have hfirst := hsame 0 (Nat.succ_pos n)
    rw [Nat.add_zero,Nat.add_zero,getElem?_eq_getElem (by omega : p < text.length)] at hfirst
    have hfetch : fetch (text.take p) ref=.ok text[p] := by
      rw [fetch,getElem?_take_of_lt href,hfirst]
    have hgrow : text.take p++[text[p]]=text.take (p+1) :=
      (take_append_getElem (by omega : p < text.length))
    have hrest : ∀ i < n,text[ref+1+i]?=text[p+1+i]? := fun i hi => by
      have h := hsame (i+1) (by omega)
      rwa [← Nat.add_assoc,← Nat.add_assoc,Nat.add_right_comm ref,Nat.add_right_comm p] at h
    calc copyBack (n+1) ref (text.take p)
        =copyBack n (ref+1) (text.take p++[text[p]]) := by rw [copyBack,hfetch]; rfl
      _=.ok (text.take (p+1+n)) := by rw [hgrow,ih (by omega) (by omega) hrest]
      _=.ok (text.take (p+(n+1))) := by rw [Nat.add_right_comm p 1 n,Nat.add_assoc]

def referenceBytes (off len : ℕ) : Bytes :=
  if len < 7 then [UInt8.ofNat (off/256+len*32),UInt8.ofNat off]
  else [UInt8.ofNat (off/256+7*32),UInt8.ofNat (len-7),UInt8.ofNat off]

theorem decodes_reference (text : Bytes) {off len p : ℕ} (hoff : off < maxOff) (hlow : 1 ≤ len)
    (hhigh : len ≤ 262) (hp : off+1 ≤ p) (hlen : p+(len+2) ≤ text.length)
    (hsame : ∀ i < len+2,text[p-(off+1)+i]?=text[p+i]?) :
    Decodes text.length (referenceBytes off len) (text.take p) (text.take (p+(len+2))) := by
  have hp' : (text.take p).length=p := by rw [length_take]; omega
  have hcopy := copyBack_eq (by omega : p-(off+1) < p) hlen hsame
  unfold maxOff at hoff
  -- both forms end in the same way
  have htake : ∀ (ctrl : ℕ) (rest : Bytes),ctrl%32=off/256 →
      takeReference text.length ctrl len (UInt8.ofNat off::rest) (text.take p)=
        .ok (rest,text.take (p+(len+2))) := by
    intro ctrl rest hctrl
    have hdistance : ctrl%32*256+1+(UInt8.ofNat off).toNat=off+1 := by
      rw [hctrl,UInt8.toNat_ofNat']
      omega
    rw [takeReference,hdistance,hp',if_neg (by omega),if_neg (by omega),hcopy]
    rfl
  rw [referenceBytes]
  split
  · rename_i hshort
    have hctrl : (UInt8.ofNat (off/256+len*32)).toNat=off/256+len*32 := by
      rw [UInt8.toNat_ofNat']
      omega
    refine Decodes.of_step fun rest => ?_
    unfold decompressStep
    dsimp only
    rw [hctrl]
    rw [if_neg (by omega),if_neg (by omega),show (off/256+len*32)/32=len by omega]
    exact htake _ rest (by omega)
  · rename_i hlong
    have hctrl : (UInt8.ofNat (off/256+7*32)).toNat=off/256+7*32 := by
      rw [UInt8.toNat_ofNat']
      omega
    have hextra : 7+(UInt8.ofNat (len-7)).toNat=len := by
      rw [UInt8.toNat_ofNat']
      omega
    refine Decodes.of_step fun rest => ?_
    unfold decompressStep
    dsimp only
    rw [hctrl]
    rw [if_neg (by omega),if_pos (by omega),cons_append]
    dsimp only
    rw [hextra]
    exact htake _ rest (by omega)

end Decompress

theorem take_set {i n : ℕ} (h : i < buffer.length) (b : UInt8) :
    (buffer.set i b).take (i+1+n)=buffer.take i++b::(buffer.drop (i+1)).take n := by
  have hi : (buffer.take i).length=i := by rw [length_take]; omega
  rw [set_eq_take_append_cons_drop,if_pos h,take_append,hi,
    take_of_length_le (by omega),show i+1+n-i=n+1 by omega,take_succ_cons]

theorem take_succ_set (h : i < buffer.length) (b : UInt8) :
    (buffer.set i b).take (i+1)=buffer.take i++[b] := take_set (n := 0) h b

theorem stretch_set {buffer input : Bytes} {k m n : ℕ} {b : UInt8}
    (h : (buffer.drop k).take n=(input.drop m).take n) (hk : k+n < buffer.length)
    (hb : input[m+n]?=some b) :
    ((buffer.set (k+n) b).drop k).take (n+1)=(input.drop m).take (n+1) := by
  have hkept : (buffer.set (k+n) b).drop k=(buffer.drop k).set n b := by
    rw [drop_set,if_neg (by omega),Nat.add_sub_cancel_left]
  have hlen : n < (buffer.drop k).length := by rw [length_drop]; omega
  have hnext : (input.drop m).take (n+1)=(input.drop m).take n++[b] := by
    rw [take_add_one,getElem?_drop,hb]
    rfl
  rw [hkept,take_succ_set hlen,h,hnext]

section Compress

variable {input : Bytes} {size : ℕ}

/-- The compressor between two rounds: the closed part of the output decodes to the input
before the open run, and the run follows its control byte. -/
structure Open (input : Bytes) (size : ℕ) (s : State) : Prop where
  kept : s.out.length=size
  low : s.lit+1 ≤ s.op
  high : s.op ≤ size+(if s.lit=0 then 1 else 0)
  lit : s.lit ≤ maxLit
  litIp : s.lit ≤ s.ip
  ip : s.ip ≤ input.length
  closed : Decodes input.length (s.out.take (s.op-s.lit-1)) [] (input.take (s.ip-s.lit))
  run : (s.out.drop (s.op-s.lit)).take s.lit=(input.drop (s.ip-s.lit)).take s.lit

def State.finish (s : State) : ℕ := if s.lit=0 then s.op-1 else s.op

variable {s : State} {fuel : ℕ}

theorem closeRun_yields (h : Open input size s) (hop : s.op ≤ size) :
    Yields (closeRun s) fun s' => ∃ out,s'={ s with out := out } ∧ out.length=size ∧
      Decodes input.length (out.take s.finish) [] (input.take s.ip) := by
  have hlow := h.low
  have hsize := h.kept
  rw [closeRun,if_neg (by omega)]
  refine Yields.bind (store_yields (by omega) _) ?_
  rintro out rfl
  refine Yields.pure ⟨_,rfl,by rw [length_set,h.kept],?_⟩
  have hbefore : ∀ b : UInt8,(s.out.set (s.op-s.lit-1) b).take (s.op-s.lit-1)=
      s.out.take (s.op-s.lit-1) := fun b => take_set_of_le le_rfl
  rw [State.finish]
  split
  · rename_i hzero
    have hclosed := h.closed
    have hbefore := hbefore (UInt8.ofNat (s.lit+255))
    rw [hzero,Nat.sub_zero] at hclosed hbefore ⊢
    rw [Nat.sub_zero] at hclosed
    rw [hbefore]
    exact hclosed
  · rename_i hpos
    -- the run as a list, and the output as closed part, control byte and run
    obtain ⟨run,hrun⟩ : ∃ run,run=(input.drop (s.ip-s.lit)).take s.lit := ⟨_,rfl⟩
    have hlitIp := h.litIp
    have hip := h.ip
    have hlen : run.length=s.lit := by
      rw [hrun,length_take,length_drop]
      omega
    have hout : (s.out.set (s.op-s.lit-1) (UInt8.ofNat (s.lit+255))).take s.op=
        s.out.take (s.op-s.lit-1)++(UInt8.ofNat (run.length+255)::run) := by
      have hset := take_set (n := s.lit) (by omega : s.op-s.lit-1 < s.out.length)
        (UInt8.ofNat (s.lit+255))
      rw [show s.op-s.lit-1+1+s.lit=s.op by omega,show s.op-s.lit-1+1=s.op-s.lit by omega,h.run,
        ← hrun] at hset
      rw [hset,hlen]
    have hread : input.take s.ip=input.take (s.ip-s.lit)++run := by
      rw [hrun,← take_add,Nat.sub_add_cancel hlitIp]
    rw [hout,hread]
    refine h.closed.append (decodes_literal (by omega) (by rw [hlen]; exact h.lit) ?_)
    rw [hlen,length_take]
    omega

theorem Open.push (h : Open input size s) (hlit : s.lit < maxLit) (hip : s.ip < input.length)
    (hop : s.op < size) {b : UInt8} (hb : input[s.ip]?=some b) :
    Open input size { s with ip := s.ip+1, op := s.op+1, lit := s.lit+1, out := s.out.set s.op b } := by
  have hsize := h.kept
  have hlow := h.low
  have hlitIp := h.litIp
  refine ⟨by rw [length_set,hsize],by dsimp only; omega,?_,hlit,by dsimp only; omega,hip,?_,?_⟩
  · dsimp only
    rw [if_neg (Nat.succ_ne_zero _)]
    omega
  · dsimp only
    rw [show s.op+1-(s.lit+1)-1=s.op-s.lit-1 by omega,
      show s.ip+1-(s.lit+1)=s.ip-s.lit by omega,take_set_of_le (by omega)]
    exact h.closed
  · dsimp only
    rw [show s.op+1-(s.lit+1)=s.op-s.lit by omega,
      show s.ip+1-(s.lit+1)=s.ip-s.lit by omega]
    have hstretch := stretch_set h.run (by omega : s.op-s.lit+s.lit < s.out.length)
      (by rw [Nat.sub_add_cancel hlitIp]; exact hb)
    rwa [Nat.sub_add_cancel (by omega : s.lit ≤ s.op)] at hstretch

theorem copyLiteral_yields (h : Open input size s) (hlit : s.lit < maxLit)
    (hip : s.ip < input.length) (hop : s.op < size) :
    Yields (copyLiteral input s) fun s' => Open input size s' ∧ s'.lit < maxLit ∧
      s'.ip=s.ip+1 ∧ (s'.lit=s.lit+1 ∧ s'.op=s.op+1 ∨
        s.lit+1=maxLit ∧ s'.lit=0 ∧ s'.op=s.op+2) := by
  have hsize := h.kept
  unfold copyLiteral
  refine Yields.bind (fetch_yields hip) fun b hb => ?_
  refine Yields.bind (store_yields (by omega) b) ?_
  rintro out rfl
  have hopen := h.push hlit hip hop hb
  dsimp only
  split
  · rename_i hfull
    refine Yields.bind (closeRun_yields hopen (by dsimp only; omega)) ?_
    rintro s' ⟨out,rfl,hout,hdecodes⟩
    refine Yields.pure ⟨⟨hout,by dsimp only; omega,?_,Nat.zero_le _,Nat.zero_le _,hip,?_,rfl⟩,
      show 0 < maxLit by decide,rfl,.inr ⟨hfull,rfl,rfl⟩⟩
    · dsimp only
      rw [if_pos rfl]
      omega
    · rw [State.finish,if_neg (Nat.succ_ne_zero _)] at hdecodes
      exact hdecodes
  · rename_i hroom
    exact Yields.pure ⟨hopen,by dsimp only; omega,rfl,.inl ⟨rfl,rfl⟩⟩

def Matches (input : Bytes) (ref ip len : ℕ) : Prop := ∀ i < len,input[ref+i]?=input[ip+i]?

variable {ref : ℕ}

theorem Matches.succ {ip len : ℕ} (h : Matches input ref ip len)
    (hnext : input[ref+len]?=input[ip+len]?) : Matches input ref ip (len+1) := by
  intro i hi
  rcases Nat.lt_succ_iff_lt_or_eq.mp hi with hi | rfl
  · exact h i hi
  · exact hnext

theorem unrolled_yields {ip n len : ℕ} (href : ref < ip) (hlen : ip+len+n < input.length)
    (h : Matches input ref ip (len+1)) :
    Yields (unrolled input ref ip n len) fun r => len ≤ r.1 ∧ r.1 ≤ len+n ∧
      (r.2=true → len+1 ≤ r.1 ∧ Matches input ref ip r.1) ∧
      (r.2=false → r.1=len+n ∧ Matches input ref ip (r.1+1)) := by
  induction n generalizing len with
  | zero =>
    exact Yields.pure ⟨le_rfl,le_rfl,fun hfalse => Bool.noConfusion hfalse,fun _ => ⟨rfl,h⟩⟩
  | succ n ih =>
    unfold unrolled
    refine Yields.bind (fetch_yields (by omega)) fun a ha => ?_
    refine Yields.bind (fetch_yields (by omega)) fun b hb => ?_
    split
    · exact Yields.pure ⟨by dsimp only; omega,by dsimp only; omega,fun _ => ⟨le_rfl,h⟩,
        fun hfalse => Bool.noConfusion hfalse⟩
    · rename_i heq
      rw [not_not] at heq
      refine (ih (by omega) (h.succ (by rw [ha,hb,heq]))).mono fun r hr => ?_
      obtain ⟨hlow,hhigh,hbroke,hwhole⟩ := hr
      exact ⟨by omega,by omega,fun ht => ⟨by have := (hbroke ht).1; omega,(hbroke ht).2⟩,
        fun hf => ⟨by have := (hwhole hf).1; omega,(hwhole hf).2⟩⟩

theorem guarded_yields {ip maxlen fuel len : ℕ} (href : ref < ip)
    (hmax : ip+maxlen < input.length) (hfuel : maxlen ≤ fuel+len)
    (h : Matches input ref ip (len+1)) :
    Yields (guarded input ref ip maxlen fuel len) fun r => (len+1 ≤ r ∨ r=len ∧ fuel=0) ∧
      (r ≤ len+1 ∨ r ≤ maxlen) ∧ Matches input ref ip r := by
  induction fuel generalizing len with
  | zero => exact Yields.pure ⟨.inr ⟨rfl,rfl⟩,.inl (by omega),fun i hi => h i (by omega)⟩
  | succ fuel ih =>
    unfold guarded
    split
    · refine Yields.bind (fetch_yields (by omega)) fun a ha => ?_
      refine Yields.bind (fetch_yields (by omega)) fun b hb => ?_
      split
      · rename_i heq
        refine (ih (by omega) (h.succ (by rw [ha,hb,heq]))).mono fun r hr => ?_
        obtain ⟨hlow,hhigh,hmatch⟩ := hr
        exact ⟨.inl (by omega),.inr (by omega),hmatch⟩
      · exact Yields.pure ⟨.inl le_rfl,.inl le_rfl,h⟩
    · exact Yields.pure ⟨.inl le_rfl,.inl le_rfl,h⟩

theorem matchLength_yields {ip : ℕ} (href : ref < ip) (hip : ip+2 < input.length)
    (h : Matches input ref ip 3) :
    Yields (matchLength input ref ip) fun len => 3 ≤ len ∧ len ≤ maxRef ∧
      ip+len ≤ input.length ∧ Matches input ref ip len := by
  unfold matchLength
  obtain ⟨maxlen,hmaxlen⟩ : ∃ maxlen,maxlen=min (input.length-ip-2) maxRef := ⟨_,rfl⟩
  dsimp only
  rw [← hmaxlen]
  unfold maxRef at hmaxlen ⊢
  split
  · refine Yields.bind (unrolled_yields href (by omega) h) ?_
    rintro ⟨len,broke⟩ ⟨hlow,hhigh,hbroke,hwhole⟩
    dsimp only at hlow hhigh hbroke hwhole ⊢
    cases broke with
    | true =>
      obtain ⟨hlen,hmatch⟩ := hbroke rfl
      exact Yields.pure ⟨by omega,by omega,by omega,hmatch⟩
    | false =>
      obtain ⟨hlen,hmatch⟩ := hwhole rfl
      refine (guarded_yields href (by omega) (by omega) hmatch).mono fun r hr => ?_
      obtain ⟨hrlow,hrhigh,hrmatch⟩ := hr
      exact ⟨by omega,by omega,by omega,hrmatch⟩
  · refine (guarded_yields href (by omega) (by omega) h).mono fun r hr => ?_
    obtain ⟨hrlow,hrhigh,hrmatch⟩ := hr
    exact ⟨by omega,by omega,by omega,hrmatch⟩

theorem writeReference_yields (off len : ℕ) (hop : s.op+2 < s.out.length) :
    Yields (writeReference off len s) fun s' => ∃ out op,s'={ s with out := out, op := op } ∧
      out.length=s.out.length ∧ op ≤ s.op+3 ∧
      out.take op=s.out.take s.op++referenceBytes off len := by
  unfold writeReference referenceBytes
  split
  · refine Yields.bind (store_yields (by omega) _) ?_
    rintro out rfl
    refine Yields.bind (store_yields (by rw [length_set]; omega) _) ?_
    rintro out rfl
    refine Yields.pure ⟨_,_,rfl,by rw [length_set,length_set],by omega,?_⟩
    rw [take_succ_set (by rw [length_set]; omega),take_succ_set (by omega),append_assoc]
    rfl
  · refine Yields.bind (store_yields (by omega) _) ?_
    rintro out rfl
    refine Yields.bind (store_yields (by rw [length_set]; omega) _) ?_
    rintro out rfl
    refine Yields.bind (store_yields (by rw [length_set,length_set]; omega) _) ?_
    rintro out rfl
    refine Yields.pure ⟨_,_,rfl,by rw [length_set,length_set,length_set],le_rfl,?_⟩
    rw [take_succ_set (by rw [length_set,length_set]; omega),
      take_succ_set (by rw [length_set]; omega),take_succ_set (by omega),append_assoc,
      append_assoc]
    rfl

theorem reindex_yields (hlow : 2 ≤ s.ip) (hip : s.ip+2 < input.length) :
    Yields (reindex input s) fun s' => ∃ hval htab,s'={ s with hval := hval, htab := htab } := by
  unfold reindex
  refine Yields.bind (fetch_yields (by omega)) fun a _ => ?_
  refine Yields.bind (fetch_yields (by omega)) fun b _ => ?_
  refine Yields.bind (fetch_yields (by omega)) fun c _ => ?_
  refine Yields.bind (fetch_yields (by omega)) fun d _ => ?_
  exact Yields.pure ⟨_,_,rfl⟩

/-- What a round of the loop keeps: the run is open and shorter than its limit, the position
moved on, and the loop is left only near the end of the input. -/
def Progress (input : Bytes) (size ip : ℕ) (r : Bool×State) : Prop :=
  Open input size r.2 ∧ r.2.lit < maxLit ∧ ip < r.2.ip ∧
    (r.1=true → input.length ≤ r.2.ip+2)

theorem takeMatch_yields (h : Open input size s) (hip : s.ip+2 < input.length)
    (href : ref < s.ip) (hoff : s.ip-ref-1 < maxOff) (hmatch : Matches input ref s.ip 3) :
    Yields (takeMatch input ref s) (Progress input size s.ip) := by
  have hsize := h.kept
  have hlow := h.low
  unfold takeMatch
  split
  · exact Yields.giveUp
  · rename_i hroom
    simp only [outOfRoom,Bool.and_eq_true,decide_eq_true_eq,not_and] at hroom
    have hfits : s.finish+2 < size ∧ s.op ≤ size := by
      rw [State.finish]
      by_cases hzero : s.lit=0
      · rw [if_pos hzero] at hroom ⊢
        omega
      · rw [if_neg hzero] at hroom ⊢
        omega
    refine Yields.bind (closeRun_yields h hfits.2) ?_
    rintro s' ⟨out,rfl,hout,hdecodes⟩
    dsimp only
    -- both ways out of the run leave the same state behind the closed part
    have hstate : (if s.lit=0 then ({ s with out := out, op := s.op-1 } : State)
        else { s with out := out })={ s with out := out, op := s.finish } := by
      rw [State.finish]
      split <;> rfl
    rw [hstate]
    refine Yields.bind (matchLength_yields href hip hmatch) fun len hlen => ?_
    obtain ⟨hthree,hmax,hend,hmatch⟩ := hlen
    dsimp only at hend hmatch
    refine Yields.bind (writeReference_yields _ _ (by dsimp only; omega)) ?_
    rintro s' ⟨out',op',rfl,hout',hop',htake⟩
    unfold maxRef at hmax
    have hbytes : Decodes input.length (out'.take op') [] (input.take (s.ip+len)) := by
      rw [htake]
      refine hdecodes.append ?_
      have hback : s.ip-(s.ip-ref-1+1)=ref := by omega
      have hreference := decodes_reference input (p := s.ip) hoff
        (by omega : 1 ≤ len-2) (by omega) (by omega) (by omega)
        (fun i hi => by rw [hback]; exact hmatch i (by omega))
      rwa [Nat.sub_add_cancel (by omega : 2 ≤ len)] at hreference
    have hopen : ∀ hval htab,Open input size ⟨s.ip+len,op'+1,0,hval,htab,out'⟩ := by
      intro hval htab
      refine ⟨by dsimp only at hout' ⊢; omega,Nat.succ_le_succ (Nat.zero_le _),?_,Nat.zero_le _,
        Nat.zero_le _,hend,?_,rfl⟩
      · dsimp only at hop' ⊢
        rw [if_pos rfl]
        omega
      · exact hbytes
    dsimp only
    split
    · rename_i hlast
      exact Yields.pure ⟨hopen _ _,show 0 < maxLit by decide,by dsimp only; omega,fun _ => hlast⟩
    · rename_i hmore
      refine Yields.bind (reindex_yields (by dsimp only; omega) (by dsimp only; omega)) ?_
      rintro s' ⟨hval,htab,rfl⟩
      exact Yields.pure ⟨hopen _ _,show 0 < maxLit by decide,by dsimp only; omega,
        fun hfalse => Bool.noConfusion hfalse⟩

theorem compressStep_yields (h : Open input size s) (hlit : s.lit < maxLit)
    (hip : s.ip+2 < input.length) : Yields (compressStep input s) (Progress input size s.ip) := by
  unfold compressStep
  refine Yields.bind (fetch_yields hip) fun c hc => ?_
  dsimp only
  generalize s.htab (hashIndex (hashNext s.hval c))=ref
  generalize Function.update s.htab (hashIndex (hashNext s.hval c)) (s.ip%2^32)=htab
  generalize hashNext s.hval c=hval
  have hopen : Open input size ⟨s.ip,s.op,s.lit,hval,htab,s.out⟩ :=
    { h with }
  -- without a match a literal is copied
  have hliteral : Yields
      (if s.out.length ≤ s.op then .error .giveUp
      else do
        let s ← copyLiteral input ⟨s.ip,s.op,s.lit,hval,htab,s.out⟩
        pure (false,s)) (Progress input size s.ip) := by
    split
    · exact Yields.giveUp
    · rename_i hroom
      have hkept := h.kept
      refine Yields.bind (copyLiteral_yields hopen hlit (by dsimp only; omega)
        (by dsimp only; omega)) fun s' hs' => ?_
      obtain ⟨hopen',hlit',hip',-⟩ := hs'
      dsimp only at hip'
      exact Yields.pure ⟨hopen',hlit',by dsimp only; omega,fun hfalse => Bool.noConfusion hfalse⟩
  split
  · rename_i hcandidate
    simp only [Bool.and_eq_true,decide_eq_true_eq] at hcandidate
    obtain ⟨⟨href,hoff⟩,-⟩ := hcandidate
    refine Yields.bind (fetch_yields (by omega)) fun r2 hr2 => ?_
    refine Yields.bind (fetch_yields (by omega)) fun i0 hi0 => ?_
    refine Yields.bind (fetch_yields (by omega)) fun r0 hr0 => ?_
    refine Yields.bind (fetch_yields (by omega)) fun i1 hi1 => ?_
    refine Yields.bind (fetch_yields (by omega)) fun r1 hr1 => ?_
    split
    · rename_i hequal
      simp only [Bool.and_eq_true,decide_eq_true_eq] at hequal
      obtain ⟨⟨h2,h0⟩,h1⟩ := hequal
      refine takeMatch_yields hopen hip href hoff fun i hi => ?_
      interval_cases i
      · rw [Nat.add_zero,Nat.add_zero,hr0,hi0,h0]
      · rw [hr1,hi1,h1]
      · rw [hr2,hc,h2]
    · exact hliteral
  · exact hliteral

theorem compressLoop_yields (h : Open input size s) (hlit : s.lit < maxLit)
    (hfuel : input.length ≤ s.ip+fuel) :
    Yields (compressLoop input fuel s) fun s' => Open input size s' ∧ s'.lit < maxLit ∧
      input.length ≤ s'.ip+2 := by
  induction fuel generalizing s with
  | zero => exact Yields.pure ⟨h,hlit,by omega⟩
  | succ fuel ih =>
    unfold compressLoop
    split
    · rename_i hmore
      refine Yields.bind (compressStep_yields h hlit hmore) ?_
      rintro ⟨leave,s'⟩ ⟨hopen,hlit',hip,hleave⟩
      dsimp only at hopen hlit' hip hleave ⊢
      cases leave with
      | true => exact Yields.pure ⟨hopen,hlit',hleave rfl⟩
      | false => exact ih hopen hlit' (by omega)
    · rename_i hdone
      exact Yields.pure ⟨h,hlit,by omega⟩

/-- Room for the bytes still to be copied, with one more byte if that fills the run. -/
def Room (input : Bytes) (size : ℕ) (s : State) : Prop :=
  s.op+(input.length-s.ip)+(if maxLit ≤ s.lit+(input.length-s.ip) then 1 else 0) ≤ size

theorem Room.copy {s s' : State} (h : Room input size s) (hmore : s.ip < input.length)
    (hshort : input.length ≤ s.ip+2) (hip : s'.ip=s.ip+1)
    (hcount : s'.lit=s.lit+1 ∧ s'.op=s.op+1 ∨ s.lit+1=maxLit ∧ s'.lit=0 ∧ s'.op=s.op+2) :
    Room input size s' := by
  unfold Room maxLit at *
  rw [hip]
  rcases hcount with ⟨hlit,hop⟩ | ⟨hfull,hlit,hop⟩
  · rw [hlit,hop]
    split_ifs at h ⊢ <;> omega
  · rw [hlit,hop]
    split_ifs at h ⊢ <;> omega

theorem Room.le (h : Room input size s) : s.op+(input.length-s.ip) ≤ size := by
  unfold Room at h
  omega

theorem tailLoop_yields (h : Open input size s) (hlit : s.lit < maxLit)
    (hroom : Room input size s) (hfuel : input.length ≤ s.ip+fuel)
    (hshort : input.length ≤ s.ip+2) :
    Yields (tailLoop input fuel s) fun s' => Open input size s' ∧ s'.op ≤ size ∧
      s'.ip=input.length := by
  induction fuel generalizing s with
  | zero =>
    have hip := h.ip
    have hle := hroom.le
    exact Yields.pure ⟨h,by omega,by omega⟩
  | succ fuel ih =>
    have hip := h.ip
    have hle := hroom.le
    unfold tailLoop
    split
    · rename_i hmore
      refine Yields.bind (copyLiteral_yields h hlit hmore (by omega)) fun s' hs' => ?_
      obtain ⟨hopen,hlit',hip',hcount⟩ := hs'
      exact ih hopen hlit' (hroom.copy hmore hshort hip' hcount) (by omega) (by omega)
    · rename_i hdone
      exact Yields.pure ⟨h,by omega,by omega⟩

theorem shortLoop_yields (h : Open input size s) (hlit : s.lit+(input.length-s.ip) ≤ maxLit)
    (hop : s.op ≤ size) (hfuel : input.length ≤ s.ip+fuel) :
    Yields (shortLoop input fuel s) fun s' => Open input size s' ∧ s'.op ≤ size ∧
      s'.ip=input.length ∧ s'.lit=s.lit+(input.length-s.ip) := by
  induction fuel generalizing s with
  | zero =>
    have hip := h.ip
    exact Yields.pure ⟨h,hop,by omega,by omega⟩
  | succ fuel ih =>
    have hip := h.ip
    have hkept := h.kept
    unfold shortLoop
    split
    · rename_i hmore
      split
      · exact Yields.giveUp
      · rename_i hroom
        refine Yields.bind (fetch_yields hmore) fun b hb => ?_
        refine Yields.bind (store_yields (by omega) b) ?_
        rintro out rfl
        have hopen := h.push (by omega) hmore (by omega) hb
        refine (ih hopen (by dsimp only; omega) (by dsimp only; omega) (by dsimp only; omega)).mono
          fun s' hs' => ?_
        obtain ⟨hopen',hop',hip',hlit'⟩ := hs'
        exact ⟨hopen',hop',hip',by dsimp only at hlit'; omega⟩
    · rename_i hdone
      exact Yields.pure ⟨h,hop,by omega,by omega⟩

theorem open_start (hval : UInt32) (hsize : 0 < size) :
    Open input size ⟨0,1,0,hval,fun _ => 0,replicate size 0⟩ :=
  ⟨length_replicate,le_rfl,by dsimp only; omega,Nat.zero_le _,le_rfl,Nat.zero_le _,
    Decodes.nil [],rfl⟩

theorem lzfCompress_yields (input : Bytes) (size : ℕ) :
    Yields (lzfCompress input size) fun c => c.length ≤ size ∧
      lzfDecompress c input.length=.ok input := by
  unfold lzfCompress
  split
  · exact Yields.giveUp
  · rename_i hpos
    simp only [Bool.or_eq_true,decide_eq_true_eq,not_or] at hpos
    dsimp only
    split
    · rename_i hshort
      refine Yields.bind (shortLoop_yields (open_start 0 (by omega)) (by unfold maxLit; dsimp only; omega)
        (by dsimp only; omega) (by dsimp only; omega)) fun s hs => ?_
      obtain ⟨hopen,hop,hip,hlit⟩ := hs
      refine Yields.bind (closeRun_yields hopen hop) ?_
      rintro s' ⟨out,rfl,hout,hdecodes⟩
      rw [hip,take_length,State.finish,if_neg (by dsimp only at hlit; omega)] at hdecodes
      exact Yields.pure ⟨hout ▸ length_take_le' _ _,hdecodes.decompress⟩
    · rename_i hlong
      refine Yields.bind (fetch_yields (by omega)) fun a _ => ?_
      refine Yields.bind (fetch_yields (by omega)) fun b _ => ?_
      refine Yields.bind (compressLoop_yields (open_start _ (by omega)) (show 0 < maxLit by decide)
        (by dsimp only; omega)) fun s hs => ?_
      obtain ⟨hopen,hlit,hshort⟩ := hs
      split
      · exact Yields.giveUp
      · rename_i hroom
        have hkept := hopen.kept
        have htail : Room input size s := by
          unfold Room
          split <;> omega
        refine Yields.bind (tailLoop_yields hopen hlit htail (by omega) hshort) fun s' hs' => ?_
        obtain ⟨hopen',hop',hip'⟩ := hs'
        refine Yields.bind (closeRun_yields hopen' hop') ?_
        rintro s'' ⟨out,rfl,hout,hdecodes⟩
        rw [hip',take_length] at hdecodes
        exact Yields.pure ⟨hout ▸ length_take_le' _ _,hdecodes.decompress⟩

end Compress

end Mnemos.Lzf

/-! ## Decompression inside its buffers -/

namespace Mnemos.Lzf

open List

structure Cursor where
  ip : ℕ
  op : ℕ
  out : Bytes

/-- Reading back a byte of the output; bytes not yet written are out of bounds. -/
def fetchWritten (c : Cursor) (i : ℕ) : Except Stop UInt8 :=
  if i < c.op then fetch c.out i else .error .fault

def copyRun (input : Bytes) : ℕ → Cursor → Except Stop Cursor
  | 0,c => pure c
  | n+1,c => do
    let b ← fetch input c.ip
    let out ← store c.out c.op b
    copyRun input n ⟨c.ip+1,c.op+1,out⟩

def copyReference : ℕ → ℕ → Cursor → Except Stop Cursor
  | 0,_,c => pure c
  | n+1,ref,c => do
    let b ← fetchWritten c ref
    let out ← store c.out c.op b
    copyReference n (ref+1) ⟨c.ip,c.op+1,out⟩

def literalRun (input : Bytes) (ctrl : ℕ) (c : Cursor) : Except Stop Cursor :=
  if c.out.length < c.op+(ctrl+1) then .error .giveUp
  else if input.length < c.ip+(ctrl+1) then .error .giveUp
  else copyRun input (ctrl+1) c

def finishReference (input : Bytes) (ctrl len : ℕ) (c : Cursor) : Except Stop Cursor := do
  let low ← fetch input c.ip
  -- the source's pointer may move in front of the buffer, so it is an integer here
  let ref : ℤ := c.op-ctrl%32*256-1-low.toNat
  if c.out.length < c.op+len+2 then .error .giveUp
  else if ref < 0 then .error .giveUp
  else copyReference (len+2) ref.toNat { c with ip := c.ip+1 }

def backReference (input : Bytes) (ctrl : ℕ) (c : Cursor) : Except Stop Cursor :=
  if input.length ≤ c.ip then .error .giveUp
  else if ctrl/32=7 then do
    let extra ← fetch input c.ip
    if input.length ≤ c.ip+1 then .error .giveUp
    else finishReference input ctrl (7+extra.toNat) { c with ip := c.ip+1 }
  else finishReference input ctrl (ctrl/32) c

def decompressRound (input : Bytes) (c : Cursor) : Except Stop Cursor := do
  let control ← fetch input c.ip
  if control.toNat < 32 then literalRun input control.toNat { c with ip := c.ip+1 }
  else backReference input control.toNat { c with ip := c.ip+1 }

def decompressRounds (input : Bytes) : ℕ → Cursor → Except Stop Cursor
  | 0,c => if c.ip < input.length then .error .fault else pure c
  | rounds+1,c =>
    if c.ip < input.length then do
      let c ← decompressRound input c
      decompressRounds input rounds c
    else pure c

/-- Actual `lzfDecompress` into a buffer; `op` is what the source returns. -/
def lzfDecompressInto (input out : Bytes) : Except Stop Cursor :=
  decompressRounds input input.length ⟨0,0,out⟩

/-- The indices are inside their buffers, and the output buffer keeps its size. -/
structure Cursor.Inside (input : Bytes) (capacity : ℕ) (c : Cursor) : Prop where
  ip : c.ip ≤ input.length
  op : c.op ≤ capacity
  kept : c.out.length=capacity

def Cursor.written (c : Cursor) : Bytes := c.out.take c.op

/-- A result on buffers and one on byte strings: both give up, or both return the same, at
`start` or behind it. -/
inductive Agrees (input : Bytes) (capacity start : ℕ) :
    Except Stop Cursor → Except Stop (Bytes×Bytes) → Prop where
  | giveUp : Agrees input capacity start (.error .giveUp) (.error .giveUp)
  | ok {c : Cursor} (h : c.Inside input capacity) (hstart : start ≤ c.ip) :
    Agrees input capacity start (.ok c) (.ok (input.drop c.ip,c.written))

theorem fetch_eq {buffer : Bytes} {i : ℕ} (h : i < buffer.length) :
    fetch buffer i=.ok buffer[i] := by
  rw [fetch,getElem?_eq_getElem h]

theorem store_eq {buffer : Bytes} {i : ℕ} (h : i < buffer.length) (b : UInt8) :
    store buffer i b=.ok (buffer.set i b) := if_pos h

theorem Agrees.earlier {input : Bytes} {capacity start start' : ℕ} {x : Except Stop Cursor}
    {y : Except Stop (Bytes×Bytes)} (h : Agrees input capacity start' x y)
    (hle : start ≤ start') : Agrees input capacity start x y := by
  cases h with
  | giveUp => exact .giveUp
  | ok hinside hstart => exact .ok hinside (hle.trans hstart)

section Rounds

variable {input : Bytes} {capacity : ℕ} {c : Cursor}

theorem Cursor.Inside.write (h : c.Inside input capacity) (hop : c.op < capacity) {ip : ℕ}
    (hip : ip ≤ input.length) (b : UInt8) :
    (Cursor.mk ip (c.op+1) (c.out.set c.op b)).Inside input capacity ∧
      (Cursor.mk ip (c.op+1) (c.out.set c.op b)).written=c.written++[b] :=
  ⟨⟨hip,hop,by rw [length_set,h.kept]⟩,take_succ_set (by rw [h.kept]; exact hop) b⟩

theorem Cursor.Inside.written_length (h : c.Inside input capacity) : c.written.length=c.op := by
  have hop := h.op
  rw [Cursor.written,length_take,h.kept]
  omega

theorem copyRun_eq {n : ℕ} (h : c.Inside input capacity) (hip : c.ip+n ≤ input.length)
    (hop : c.op+n ≤ capacity) :
    ∃ c' : Cursor,copyRun input n c=.ok c' ∧ c'.Inside input capacity ∧ c'.ip=c.ip+n ∧
      c'.written=c.written++(input.drop c.ip).take n := by
  induction n generalizing c with
  | zero => exact ⟨c,rfl,h,rfl,by rw [take_zero,append_nil]⟩
  | succ n ih =>
    have hlt : c.ip < input.length := by omega
    obtain ⟨hinside,hwritten⟩ := h.write (by omega) (Nat.succ_le_of_lt hlt) input[c.ip]
    obtain ⟨c',hrun,hinside',hip',hwritten'⟩ :=
      ih hinside (by dsimp only; omega) (by dsimp only; omega)
    refine ⟨c',?_,hinside',by rw [hip']; dsimp only; omega,?_⟩
    · have hroom : c.op < c.out.length := by rw [h.kept]; omega
      calc copyRun input (n+1) c
          =(store c.out c.op input[c.ip] >>= fun out => copyRun input n ⟨c.ip+1,c.op+1,out⟩) := by
            rw [copyRun,fetch_eq hlt]; rfl
        _=.ok c' := by rw [store_eq hroom]; exact hrun
    · rw [hwritten',hwritten,append_assoc,drop_eq_getElem_cons hlt,take_succ_cons]
      rfl

theorem copyReference_eq {n ref : ℕ} (h : c.Inside input capacity) (href : ref < c.op)
    (hop : c.op+n ≤ capacity) :
    ∃ c' : Cursor,copyReference n ref c=.ok c' ∧ c'.Inside input capacity ∧ c'.ip=c.ip ∧
      copyBack n ref c.written=.ok c'.written := by
  induction n generalizing c ref with
  | zero => exact ⟨c,rfl,h,rfl,rfl⟩
  | succ n ih =>
    have hlt : ref < c.out.length := by rw [h.kept]; omega
    obtain ⟨hinside,hwritten⟩ := h.write (by omega) h.ip c.out[ref]
    obtain ⟨c',hcopy,hinside',hip',hback⟩ :=
      ih hinside (Nat.succ_lt_succ href) (by dsimp only; omega)
    have hread : fetchWritten c ref=.ok c.out[ref] := by rw [fetchWritten,if_pos href,fetch_eq hlt]
    have hread' : fetch c.written ref=.ok c.out[ref] := by
      rw [fetch,Cursor.written,getElem?_take_of_lt href,getElem?_eq_getElem hlt]
    have hroom : c.op < c.out.length := by rw [h.kept]; omega
    refine ⟨c',?_,hinside',hip',?_⟩
    · calc copyReference (n+1) ref c
          =(store c.out c.op c.out[ref] >>= fun out =>
            copyReference n (ref+1) ⟨c.ip,c.op+1,out⟩) := by rw [copyReference,hread]; rfl
        _=.ok c' := by rw [store_eq hroom]; exact hcopy
    · rw [hwritten] at hback
      rw [copyBack,hread']
      exact hback

theorem literalRun_agrees {ctrl : ℕ} (h : c.Inside input capacity) :
    Agrees input capacity c.ip (literalRun input ctrl c)
      (takeLiteral capacity (ctrl+1) (input.drop c.ip) c.written) := by
  have hip := h.ip
  rw [literalRun,takeLiteral,h.kept,h.written_length,length_drop]
  split
  · exact .giveUp
  · by_cases hshort : input.length < c.ip+(ctrl+1)
    · rw [if_pos hshort,if_pos (by omega)]
      exact .giveUp
    · rw [if_neg hshort,if_neg (by omega)]
      obtain ⟨c',hrun,hinside,hip',hwritten⟩ := copyRun_eq h (n := ctrl+1) (by omega) (by omega)
      rw [hrun,drop_drop,← hip',← hwritten]
      exact .ok hinside (by omega)

theorem finishReference_agrees {ctrl len : ℕ} (h : c.Inside input capacity)
    (hip : c.ip < input.length) :
    Agrees input capacity c.ip (finishReference input ctrl len c)
      (takeReference capacity ctrl len (input.drop c.ip) c.written) := by
  rw [finishReference,drop_eq_getElem_cons hip,takeReference,fetch_eq hip]
  dsimp only [bind,Except.bind]
  rw [h.kept,h.written_length]
  obtain ⟨low,hlow⟩ : ∃ low,low=input[c.ip].toNat := ⟨_,rfl⟩
  rw [← hlow]
  split
  · exact .giveUp
  · by_cases hfar : c.op < ctrl%32*256+1+low
    · rw [if_pos (by omega),if_pos hfar]
      exact .giveUp
    · rw [if_neg (by omega),if_neg hfar]
      -- the copy starts at the same place of what was written
      have href : ((c.op:ℤ)-ctrl%32*256-1-low).toNat=c.op-(ctrl%32*256+1+low) := by omega
      have hinside : (Cursor.mk (c.ip+1) c.op c.out).Inside input capacity := ⟨hip,h.op,h.kept⟩
      have hbefore : c.op-(ctrl%32*256+1+low) < c.op := by omega
      obtain ⟨c',hcopy,hinside',hip',hback⟩ :=
        copyReference_eq hinside (n := len+2) hbefore (by dsimp only; omega)
      rw [href,hcopy]
      change copyBack _ _ c.written=_ at hback
      rw [hback]
      change Agrees _ _ _ _ (.ok (input.drop (c.ip+1),c'.written))
      dsimp only at hip'
      rw [← hip']
      exact .ok hinside' (by omega)

theorem decompressRound_agrees (h : c.Inside input capacity) (hip : c.ip < input.length) :
    Agrees input capacity (c.ip+1) (decompressRound input c)
      (decompressStep capacity input[c.ip] (input.drop (c.ip+1)) c.written) := by
  have hnext : (Cursor.mk (c.ip+1) c.op c.out).Inside input capacity := ⟨hip,h.op,h.kept⟩
  rw [decompressRound,fetch_eq hip]
  unfold decompressStep
  dsimp only [bind,Except.bind]
  split
  · exact literalRun_agrees hnext
  · rw [backReference]
    dsimp only
    by_cases hend : input.length ≤ c.ip+1
    · -- no byte is left: the reference has no offset
      rw [if_pos hend,drop_of_length_le hend]
      split <;> exact .giveUp
    · rw [if_neg hend]
      split
      · rw [fetch_eq (by omega),drop_eq_getElem_cons (by omega : c.ip+1 < input.length)]
        dsimp only [bind,Except.bind]
        by_cases hend' : input.length ≤ c.ip+1+1
        · rw [if_pos hend',drop_of_length_le hend']
          exact .giveUp
        · rw [if_neg hend']
          exact (finishReference_agrees (c := ⟨c.ip+1+1,c.op,c.out⟩)
            ⟨by dsimp only; omega,h.op,h.kept⟩ (by dsimp only; omega)).earlier (Nat.le_succ _)
      · exact finishReference_agrees hnext (by dsimp only; omega)

theorem decompressRounds_agrees {rounds : ℕ} (h : c.Inside input capacity)
    (hrounds : input.length ≤ c.ip+rounds) :
    decompressRounds input rounds c=.error .giveUp ∧
        decompressLoop capacity rounds (input.drop c.ip) c.written=.error .giveUp ∨
      ∃ c' : Cursor,decompressRounds input rounds c=.ok c' ∧ c'.Inside input capacity ∧
        decompressLoop capacity rounds (input.drop c.ip) c.written=.ok c'.written := by
  induction rounds generalizing c with
  | zero =>
    rw [drop_of_length_le (by omega),decompressRounds,if_neg (by omega)]
    exact .inr ⟨c,rfl,h,rfl⟩
  | succ rounds ih =>
    by_cases hip : c.ip < input.length
    · rw [decompressRounds,if_pos hip,drop_eq_getElem_cons hip,decompressLoop]
      obtain ⟨x,hx⟩ : ∃ x,x=decompressRound input c := ⟨_,rfl⟩
      obtain ⟨y,hy⟩ : ∃ y,y=decompressStep capacity input[c.ip] (input.drop (c.ip+1)) c.written :=
        ⟨_,rfl⟩
      have hagrees := decompressRound_agrees h hip
      rw [← hx,← hy] at hagrees ⊢
      cases hagrees with
      | giveUp => exact .inl ⟨rfl,rfl⟩
      | ok hinside hstart => exact ih hinside (by omega)
    · rw [decompressRounds,if_neg hip,drop_of_length_le (by omega)]
      exact .inr ⟨c,rfl,h,rfl⟩

end Rounds

theorem lzfDecompressInto_agrees (input out : Bytes) :
    lzfDecompressInto input out=.error .giveUp ∧ lzfDecompress input out.length=.error .giveUp ∨
      ∃ c : Cursor,lzfDecompressInto input out=.ok c ∧ c.Inside input out.length ∧
        lzfDecompress input out.length=.ok c.written :=
  decompressRounds_agrees (c := ⟨0,0,out⟩) ⟨Nat.zero_le _,Nat.zero_le _,rfl⟩
    (by dsimp only; omega)

/-- On any input decompression comes to its end without an access outside the input, outside
the part of the buffer already written or outside the buffer, and it returns at most the
buffer's size. -/
theorem lzfDecompressInto_safe (input out : Bytes) :
    lzfDecompressInto input out≠.error .fault ∧
      ∀ c,lzfDecompressInto input out=.ok c → c.op ≤ out.length ∧ c.out.length=out.length := by
  obtain ⟨hx,-⟩ | ⟨c,hx,hinside,-⟩ := lzfDecompressInto_agrees input out
  · rw [hx]
    exact ⟨fun hfault => (by cases hfault),fun c hc => (by cases hc)⟩
  · rw [hx]
    refine ⟨fun hfault => (by cases hfault),fun c' hc => ?_⟩
    cases hc
    exact ⟨hinside.op,hinside.kept⟩

/-- Compression stays inside its buffers, and what it returns decompresses into a buffer of the
input's size to the input. -/
theorem lzfDecompressInto_lzfCompress (input : Bytes) (outLen : ℕ) :
    lzfCompress input outLen≠.error .fault ∧
      ∀ stream,lzfCompress input outLen=.ok stream → stream.length ≤ outLen ∧
        ∀ out : Bytes,out.length=input.length →
          ∃ c,lzfDecompressInto stream out=.ok c ∧ c.op=input.length ∧ c.out=input := by
  have hyields := lzfCompress_yields input outLen
  refine ⟨fun hfault => ?_,fun stream hstream => ?_⟩
  · rw [hfault] at hyields
    cases hyields
  · rw [hstream] at hyields
    obtain ⟨hsize,hdecompress⟩ := hyields
    refine ⟨hsize,fun out hout => ?_⟩
    obtain ⟨-,hnone⟩ | ⟨c,hx,hinside,hwritten⟩ := lzfDecompressInto_agrees stream out
    · rw [hout,hdecompress] at hnone
      cases hnone
    · rw [hout,hdecompress] at hwritten
      have hinput : input=c.written := Except.ok.inj hwritten
      have hop : c.op=input.length := by rw [hinput,hinside.written_length]
      refine ⟨c,hx,hop,?_⟩
      rw [hinput,Cursor.written,hop,← hout,← hinside.kept,take_length]

theorem lzfDecompressInto_single : lzfCompress [97] 2=.ok [0,97] ∧
    ∃ c,lzfDecompressInto [0,97] [0]=.ok c ∧ c.op=1 ∧ c.out=[97] := by
  have hcompress : lzfCompress [97] 2=.ok [0,97] := rfl
  exact ⟨hcompress,((lzfDecompressInto_lzfCompress [97] 2).2 [0,97] hcompress).2 [0] rfl⟩

end Mnemos.Lzf
