import Mnemos.Bytes

/-!
# The resumable request parser

`RequestParser` keeps the arguments read so far, the number still to read and
the length of the bulk being read, so a command split over several reads is
never scanned again.
-/

open List

namespace Mnemos.SplitArgs

inductive Mode where
  | plain
  | double
  | single
deriving DecidableEq

def hexDigitToInt (c : UInt8) : Option ℕ :=
  if 48 ≤ c && c ≤ 57 then some (c.toNat-48)
  else if 97 ≤ c && c ≤ 102 then some (c.toNat-97+10)
  else if 65 ≤ c && c ≤ 70 then some (c.toNat-65+10)
  else none

def unescape (c : UInt8) : UInt8 :=
  if c==110 then 10 else if c==114 then 13 else if c==116 then 9
  else if c==98 then 8 else if c==97 then 7 else c

def isSeparator (c : UInt8) : Bool := c==32 || c==10 || c==13 || c==9 || c==0

def closeOk : Bytes → Bool
  | [] => true
  | c::_ => isSpace c

def hexEscape (a b : UInt8) : Option UInt8 :=
  match hexDigitToInt a,hexDigitToInt b with
  | some x,some y => some (UInt8.ofNat (x*16+y))
  | _,_ => none

/-- The inner loop from the current byte on, with the word collected so far.
It fails on an unbalanced quote, else it gives the word and the unread bytes. -/
def scanWord : Mode → Bytes → Bytes → Option (Bytes×Bytes)
  | .plain,[],current => some (current,[])
  | .plain,c::rest,current =>
    if isSeparator c then some (current,c::rest)
    else if c==34 then scanWord .double rest current
    else if c==39 then scanWord .single rest current
    else scanWord .plain rest (current++[c])
  | .double,[],_ => none
  | .double,92::120::a::b::rest,current =>
    match hexEscape a b with
    | some v => scanWord .double rest (current++[v])
    | none => scanWord .double (a::b::rest) (current++[120])
  | .double,92::c::rest,current => scanWord .double rest (current++[unescape c])
  | .double,c::rest,current =>
    if c==34 then if closeOk rest then some (current,rest) else none
    else scanWord .double rest (current++[c])
  | .single,[],_ => none
  | .single,92::39::rest,current => scanWord .single rest (current++[39])
  | .single,c::rest,current =>
    if c==39 then if closeOk rest then some (current,rest) else none
    else scanWord .single rest (current++[c])

def skipSpace (line : Bytes) : Bytes := line.dropWhile isSpace

/-- The outer loop for a number of rounds. The outer option is empty while the loop
still runs; the inner one is the function's result. -/
def splitLoop : ℕ → Bytes → List Bytes → Option (Option (List Bytes))
  | 0,_,_ => none
  | rounds+1,line,out =>
    match skipSpace line with
    | [] => some (some out)
    | c::rest =>
      match scanWord .plain (c::rest) [] with
      | none => some none
      | some (word,rest) => splitLoop rounds rest (out++[word])

/-- Result of `splitArgs` after at most the given number of words. -/
def splitArgs (rounds : ℕ) (line : Bytes) : Option (Option (List Bytes)) :=
  splitLoop rounds line []

/-- A NUL byte is read outside quotes before an unbalanced quote ends the call. -/
def unquotedNul : Mode → Bytes → Bool
  | _,[] => false
  | .plain,c::rest =>
    if c==0 then true
    else if c==34 then unquotedNul .double rest
    else if c==39 then unquotedNul .single rest
    else unquotedNul .plain rest
  | .double,92::_::rest => unquotedNul .double rest
  | .double,c::rest =>
    if c==34 then closeOk rest && unquotedNul .plain rest else unquotedNul .double rest
  | .single,92::39::rest => unquotedNul .single rest
  | .single,c::rest =>
    if c==39 then closeOk rest && unquotedNul .plain rest else unquotedNul .single rest

/-- What a scan from `s` says about the NUL bytes it has not passed. -/
def Scanned (m : Mode) (s : Bytes) : Option (Bytes×Bytes) → Prop
  | none => unquotedNul m s=false
  | some (_,rest) => unquotedNul m s=unquotedNul .plain rest ∧ rest.length ≤ s.length

theorem Scanned.earlier {m m' : Mode} {s s' : Bytes} {r : Option (Bytes×Bytes)}
    (h : Scanned m' s' r) (hn : unquotedNul m s=unquotedNul m' s')
    (hl : s'.length ≤ s.length) : Scanned m s r := by
  cases r with
  | none => exact hn.trans h
  | some p => exact ⟨hn.trans h.1,h.2.trans hl⟩

theorem hexDigit_plain {c : UInt8} {v : ℕ} (h : hexDigitToInt c=some v) : c≠34 ∧ c≠92 := by
  have hnone : ∀ b : UInt8, b=34 ∨ b=92 → hexDigitToInt b=none := by
    rintro b (rfl | rfl) <;> rfl
  constructor
  · intro hc
    exact absurd (h.symm.trans (hnone c (Or.inl hc))) (by simp)
  · intro hc
    exact absurd (h.symm.trans (hnone c (Or.inr hc))) (by simp)

theorem unquotedNul_hex {a b v : UInt8} (h : hexEscape a b=some v) (rest : Bytes) :
    unquotedNul .double (92::120::a::b::rest)=unquotedNul .double rest := by
  rw [hexEscape] at h
  split at h
  · rename_i x y ha hb
    have h1 := hexDigit_plain ha
    have h2 := hexDigit_plain hb
    simp [unquotedNul,h1,h2]
  · exact absurd h (by simp)

theorem scanWord_scanned (m : Mode) (s current : Bytes) :
    Scanned m s (scanWord m s current) := by
  fun_induction scanWord m s current with
  | case1 current => exact ⟨rfl,le_refl _⟩
  | case2 c rest current hsep => exact ⟨rfl,le_refl _⟩
  | case3 c rest current hsep hc ih =>
    refine ih.earlier ?_ (Nat.le_succ _)
    simp_all [unquotedNul,isSeparator]
  | case4 c rest current hsep hc hc' ih =>
    refine ih.earlier ?_ (Nat.le_succ _)
    simp_all [unquotedNul,isSeparator]
  | case5 c rest current hsep hc hc' ih =>
    refine ih.earlier ?_ (Nat.le_succ _)
    simp_all [unquotedNul,isSeparator]
  | case6 current => rfl
  | case7 a b rest current v hv ih =>
    exact ih.earlier (unquotedNul_hex hv rest) (by simp only [length_cons]; omega)
  | case8 a b rest current hv ih =>
    exact ih.earlier rfl (by simp only [length_cons]; omega)
  | case9 c rest current hx ih =>
    exact ih.earlier rfl (by simp only [length_cons]; omega)
  | case10 c rest current hx hx' hc hok =>
    refine ⟨?_,Nat.le_succ _⟩
    simp_all [unquotedNul]
  | case11 c rest current hx hx' hc hok =>
    simp_all [unquotedNul,Scanned]
  | case12 c rest current hx hx' hc ih =>
    refine ih.earlier ?_ (Nat.le_succ _)
    simp_all [unquotedNul]
  | case13 current => rfl
  | case14 rest current ih => exact ih.earlier rfl (by simp only [length_cons]; omega)
  | case15 c rest current hx hc hok =>
    refine ⟨?_,Nat.le_succ _⟩
    simp_all [unquotedNul]
  | case16 c rest current hx hc hok =>
    simp_all [unquotedNul,Scanned]
  | case17 c rest current hx hc ih =>
    refine ih.earlier ?_ (Nat.le_succ _)
    simp_all [unquotedNul]

theorem unquotedNul_skipSpace (line : Bytes) :
    unquotedNul .plain (skipSpace line)=unquotedNul .plain line := by
  induction line with
  | nil => rfl
  | cons c rest ih =>
    rw [skipSpace,dropWhile_cons]
    split
    · rename_i hc
      have hne : ∀ b : UInt8, b=0 ∨ b=34 ∨ b=39 → isSpace b=false := by
        rintro b (rfl | rfl | rfl) <;> rfl
      have h0 : c≠0 := fun h => absurd (hc.symm.trans (hne c (Or.inl h))) (by decide)
      have h34 : c≠34 := fun h => absurd (hc.symm.trans (hne c (Or.inr (Or.inl h)))) (by decide)
      have h39 : c≠39 := fun h => absurd (hc.symm.trans (hne c (Or.inr (Or.inr h)))) (by decide)
      rw [← skipSpace,ih]
      simp [unquotedNul,h0,h34,h39]
    · rfl

theorem skipSpace_head {line rest : Bytes} {c : UInt8} (h : skipSpace line=c::rest) :
    isSpace c=false := by
  have hd := head?_dropWhile_not isSpace line
  rw [← skipSpace,h] at hd
  simpa using hd

theorem isSeparator_isSpace {c : UInt8} (h : isSeparator c=true) (h0 : c≠0) : isSpace c=true := by
  simp only [isSeparator,Bool.or_eq_true,beq_iff_eq] at h
  rcases h with (((rfl | rfl) | rfl) | rfl) | rfl
  · rfl
  · rfl
  · rfl
  · rfl
  · exact absurd rfl h0

theorem scanWord_consumes {c : UInt8} {rest word left : Bytes} (hc : isSeparator c=false)
    (h : scanWord .plain (c::rest) []=some (word,left)) : left.length ≤ rest.length := by
  have hall : ∀ m current, Scanned m rest (scanWord m rest current) :=
    fun m current => scanWord_scanned m rest current
  rw [scanWord,hc] at h
  simp only [Bool.false_eq_true,if_false] at h
  split at h
  · have hs := hall .double []
    rw [h] at hs
    exact hs.2
  · split at h
    · have hs := hall .single []
      rw [h] at hs
      exact hs.2
    · have hs := hall .plain ([]++[c])
      rw [h] at hs
      exact hs.2

theorem splitLoop_returns (rounds : ℕ) : ∀ (line : Bytes) (out : List Bytes),
    line.length < rounds → unquotedNul .plain line=false →
    ∃ r, splitLoop rounds line out=some r ∧
      ∀ words, r=some words → words.length ≤ out.length+line.length := by
  induction rounds with
  | zero => exact fun line out h => absurd h (Nat.not_lt_zero _)
  | succ rounds ih =>
    intro line out hlen h
    rw [← unquotedNul_skipSpace] at h
    have hskip : (skipSpace line).length ≤ line.length :=
      (dropWhile_suffix isSpace).length_le
    rw [splitLoop]
    cases hs : skipSpace line with
    | nil =>
      refine ⟨_,rfl,?_⟩
      intro words hw
      rw [← Option.some.inj hw]
      exact Nat.le_add_right _ _
    | cons c rest =>
      rw [hs] at h hskip
      have hscan := scanWord_scanned .plain (c::rest) []
      have h0 : c≠0 := by
        intro h0
        rw [h0] at h
        exact absurd h (by simp [unquotedNul])
      have hsep : isSeparator c=false := by
        by_contra hc
        have hspace := isSeparator_isSpace (Bool.not_eq_false _ ▸ hc) h0
        exact absurd (hspace.symm.trans (skipSpace_head hs)) (by decide)
      dsimp only
      cases hw : scanWord .plain (c::rest) [] with
      | none => exact ⟨none,rfl,fun words hn => absurd hn (by simp)⟩
      | some p =>
        rw [hw] at hscan
        have hleft := scanWord_consumes hsep hw
        rw [length_cons] at hskip
        obtain ⟨r,hr,hb⟩ := ih p.2 (out++[p.1]) (by omega) (hscan.1.symm.trans h)
        refine ⟨r,hr,?_⟩
        intro words hwords
        have hcount := hb words hwords
        rw [length_append,length_singleton] at hcount
        omega

theorem splitLoop_stuck (rounds : ℕ) : ∀ (line : Bytes) (out : List Bytes),
    unquotedNul .plain line=true → splitLoop rounds line out=none := by
  induction rounds with
  | zero => exact fun line out h => rfl
  | succ rounds ih =>
    intro line out h
    rw [← unquotedNul_skipSpace] at h
    rw [splitLoop]
    cases hs : skipSpace line with
    | nil =>
      rw [hs] at h
      exact absurd h (by decide)
    | cons c rest =>
      have hscan := scanWord_scanned .plain (c::rest) []
      rw [hs] at h
      dsimp only
      cases hw : scanWord .plain (c::rest) [] with
      | none =>
        rw [hw] at hscan
        exact absurd (h.symm.trans hscan) (by decide)
      | some p =>
        rw [hw] at hscan
        exact ih p.2 (out++[p.1]) (hscan.1.symm.trans h)

end Mnemos.SplitArgs

/-! ## The resumable request parser -/

open List

namespace Mnemos.Request

open SplitArgs

def maxMultibulkLength : ℤ := 1024*1024

def maxBulkLength : ℤ := 512*1024*1024

def maxInlineRequest : ℕ := 64*1024

structure RequestParser where
  argv : List Bytes
  multibulkLen : ℤ
  /-- Declared length of the bulk being read, `-1` if none. -/
  bulkLen : ℤ
deriving DecidableEq

def RequestParser.reset : RequestParser := ⟨[],0,-1⟩

inductive Status where
  | incomplete
  | complete (argv : List Bytes)
  | error (text : Bytes)
deriving DecidableEq

abbrev Outcome := Status×RequestParser×Bytes

/-- An optional minus sign and digits within `long`. -/
def parseLong (s : Bytes) : Option ℤ :=
  match s with
  | [] => none
  | 45::ds =>
    if ds.isEmpty then none
    else (readDigits 0 ds).bind fun v => if v ≤ 2^63 then some (-(v : ℤ)) else none
  | ds => (readDigits 0 ds).bind fun v => if v < 2^63 then some (v : ℤ) else none

def findCrlf (s : Bytes) : Option ℕ :=
  match s.findIdx? (·==lf) with
  | none => none
  | some nl => if nl==0 || s.getD (nl-1) 0!=cr then none else some (nl-1)

def awaitLine (p : RequestParser) (text : String) (s : Bytes) : Outcome :=
  if maxInlineRequest < s.length then (.error (ascii text),p,s) else (.incomplete,p,s)

def parseInline (rounds : ℕ) (p : RequestParser) (s : Bytes) : Option Outcome :=
  match s.findIdx? (·==lf) with
  | none => some (awaitLine p "Protocol error: too big inline request" s)
  | some nl =>
    let lineEnd := if 0 < nl && s.getD (nl-1) 0==cr then nl-1 else nl
    match splitArgs rounds (s.take lineEnd) with
    | none => none
    | some none =>
      some (.error (ascii "Protocol error: unbalanced quotes in request"),p,s.drop (nl+1))
    | some (some parts) => some (.complete parts,.reset,s.drop (nl+1))

/-- Length line of the next bulk: its length and what follows, or how the call ends. -/
def bulkHeader (p : RequestParser) (s : Bytes) : Except Outcome (ℤ×Bytes) :=
  match findCrlf s with
  | none => .error (awaitLine p "Protocol error: too big bulk count string" s)
  | some cr =>
    if s.headD 0!=36 then
      .error (.error (ascii "Protocol error: expected '$', got '"++[s.headD 0]++ascii "'"),p,s)
    else
      match parseLong ((s.drop 1).take (cr-1)) with
      | none => .error (.error (ascii "Protocol error: invalid bulk length"),p,s)
      | some len =>
        if len < 0 || maxBulkLength < len then
          .error (.error (ascii "Protocol error: invalid bulk length"),p,s)
        else .ok (len,s.drop (cr+2))

/-- Body loop of `parseMultibulk`; the count is `multibulk_len_`. -/
def readBulks : ℕ → RequestParser → Bytes → Outcome
  | 0,p,s => (.complete p.argv,.reset,s)
  | n+1,p,s =>
    match if p.bulkLen=-1 then bulkHeader p s else .ok (p.bulkLen,s) with
    | .error outcome => outcome
    | .ok (len,s) =>
      if s.length < len.toNat+2 then (.incomplete,⟨p.argv,p.multibulkLen,len⟩,s)
      else readBulks n ⟨p.argv++[s.take len.toNat],p.multibulkLen-1,-1⟩ (s.drop (len.toNat+2))

def parseMultibulk (p : RequestParser) (s : Bytes) : Outcome :=
  if p.multibulkLen=0 then
    match findCrlf s with
    | none => awaitLine p "Protocol error: too big mbulk count string" s
    | some cr =>
      match parseLong ((s.drop 1).take (cr-1)) with
      | none => (.error (ascii "Protocol error: invalid multibulk length"),p,s)
      | some count =>
        if maxMultibulkLength < count then
          (.error (ascii "Protocol error: invalid multibulk length"),p,s)
        else if count ≤ 0 then (.complete [],.reset,s.drop (cr+2))
        else readBulks count.toNat ⟨[],count,p.bulkLen⟩ (s.drop (cr+2))
  else readBulks p.multibulkLen.toNat p s

/-- On the bytes from the query position on. -/
def parse (rounds : ℕ) (p : RequestParser) (s : Bytes) : Option Outcome :=
  if s.isEmpty && p.multibulkLen==0 then some (.incomplete,p,s)
  else if p.multibulkLen==0 && s.headD 0!=42 then parseInline rounds p s
  else some (parseMultibulk p s)

def encodeBulks (argv : List Bytes) : Bytes :=
  argv.flatMap fun a => 36::natDecimal a.length++crlf++a++crlf

def encodeCommand (argv : List Bytes) : Bytes :=
  42::natDecimal argv.length++crlf++encodeBulks argv

structure QueryState where
  buffer : Bytes
  pos : ℕ
  parser : RequestParser
deriving DecidableEq

def QueryState.init : QueryState := ⟨[],0,.reset⟩

def QueryState.unread (q : QueryState) : Bytes := q.buffer.drop q.pos

def queryBufferTrimThreshold : ℕ := 32*1024

def QueryState.trimQueryBuffer (q : QueryState) : QueryState :=
  if q.pos=0 then q
  else if q.pos=q.buffer.length then { q with buffer := [], pos := 0 }
  else if queryBufferTrimThreshold ≤ q.pos then
    { q with buffer := q.buffer.drop q.pos, pos := 0 }
  else q

/-- Call `parse` on the query buffer, advancing the position. -/
def QueryState.parse (rounds : ℕ) (q : QueryState) : Option (Status×QueryState) :=
  (Request.parse rounds q.parser q.unread).map fun r =>
    (r.1,⟨q.buffer,q.buffer.length-r.2.2.length,r.2.1⟩)

/-- Calls to `parse` until one does not complete a command: the commands read and the
last status, if every call returns within the given number of calls. -/
def QueryState.drain (rounds : ℕ) : ℕ → QueryState → Option (List (List Bytes)×Status×QueryState)
  | 0,_ => none
  | calls+1,q =>
    match q.parse rounds with
    | none => none
    | some (.complete argv,q) =>
      (QueryState.drain rounds calls q).map fun r => (argv::r.1,r.2)
    | some (status,q) => some ([],status,q)

/-- One read: append the bytes, parse until no command completes, then trim. Every call
that completes a command consumes a byte, which bounds the calls. -/
def QueryState.feed (rounds : ℕ) (q : QueryState) (bytes : Bytes) :
    Option (List (List Bytes)×Status×QueryState) :=
  (QueryState.drain rounds (q.buffer.length+bytes.length+1)
    { q with buffer := q.buffer++bytes }).map fun r => (r.1,r.2.1,r.2.2.trimQueryBuffer)

/-- Successive reads: the commands read, the status each read ended with and the input
state left. -/
def QueryState.feedAll (rounds : ℕ) : QueryState → List Bytes →
    Option (List (List Bytes)×List Status×QueryState)
  | q,[] => some ([],[],q)
  | q,bytes::reads =>
    (q.feed rounds bytes).bind fun r =>
      (QueryState.feedAll rounds r.2.2 reads).map fun t => (r.1++t.1,r.2.1::t.2.1,t.2.2)

/-- `s` starts with a buffered inline line whose content, without its line end, is `line`. -/
def InlineLine (s line : Bytes) : Prop :=
  ∃ raw rest, s=raw++lf::rest ∧ lf∉raw ∧
    line=if raw.getLast?=some cr then raw.dropLast else raw

theorem findIdx_lf {raw : Bytes} (h : lf∉raw) (rest : Bytes) :
    (raw++lf::rest).findIdx? (·==lf)=some raw.length := by
  have hnone : raw.findIdx? (·==lf)=none := by
    rw [findIdx?_eq_none_iff]
    intro c hc
    exact beq_eq_false_iff_ne.mpr fun he => h (he ▸ hc)
  rw [findIdx?_append,hnone,findIdx?_cons]
  simp

theorem parseInline_line {s line : Bytes} (h : InlineLine s line) (rounds : ℕ)
    (p : RequestParser) :
    (parseInline rounds p s).isSome=(splitArgs rounds line).isSome := by
  obtain ⟨raw,rest,rfl,hraw,rfl⟩ := h
  have htake : (raw++lf::rest).take
      (if 0 < raw.length && (raw++lf::rest).getD (raw.length-1) 0==cr then raw.length-1
        else raw.length)=if raw.getLast?=some cr then raw.dropLast else raw := by
    rcases eq_nil_or_concat raw with rfl | ⟨init,c,rfl⟩
    · rfl
    · simp only [concat_eq_append,getLast?_append,getLast?_singleton]
      by_cases hc : c=cr
      · simp [hc,getD_eq_getElem?_getD]
      · have htake : ((init++[c])++lf::rest).take (init++[c]).length=init++[c] := take_left
        simpa [hc,getD_eq_getElem?_getD] using htake
  rw [parseInline,findIdx_lf hraw]
  dsimp only
  rw [htake]
  cases splitArgs rounds (if raw.getLast?=some cr then raw.dropLast else raw) with
  | none => rfl
  | some r =>
    cases r with
    | none => rfl
    | some words => rfl

/-- `splitArgs` returns on a line, with no more words than bytes, and `parseInline` returns
on every buffered copy of it, exactly when the line has no NUL byte outside quotes. -/
theorem splitArgs_returns_iff (line : Bytes) :
    ((∃ rounds r, splitArgs rounds line=some r ∧
        ∀ words, r=some words → words.length ≤ line.length) ∧
      ∀ p s, InlineLine s line → ∃ rounds, (parseInline rounds p s).isSome) ↔
    unquotedNul .plain line=false := by
  constructor
  · rintro ⟨⟨rounds,r,hr,-⟩,-⟩
    by_contra h
    have hstuck := splitLoop_stuck rounds line [] (Bool.not_eq_false _ ▸ h)
    exact absurd (hr.symm.trans hstuck) (by simp)
  · intro h
    obtain ⟨r,hr,hb⟩ := splitLoop_returns (line.length+1) line [] (Nat.lt_succ_self _) h
    refine ⟨⟨line.length+1,r,hr,?_⟩,?_⟩
    · intro words hw
      have hcount := hb words hw
      rwa [length_nil,Nat.zero_add] at hcount
    · intro p s hs
      refine ⟨line.length+1,?_⟩
      rw [parseInline_line hs,splitArgs,hr]
      rfl

/-- A line of one NUL byte never returns, so neither does the inline request holding it. -/
theorem splitArgs_nul_line : ¬((∃ rounds r, splitArgs rounds [0]=some r ∧
    ∀ words, r=some words → words.length ≤ [(0 : UInt8)].length) ∧
    ∀ p s, InlineLine s [0] → ∃ rounds, (parseInline rounds p s).isSome) := by
  rintro ⟨⟨rounds,r,hr,-⟩,-⟩
  exact absurd (hr.symm.trans (splitLoop_stuck rounds [0] [] rfl)) (by simp)

/-! ## Requests cut at arbitrary places -/

/-- Limits under which a client may send a command. -/
structure Sendable (argv : List Bytes) : Prop where
  nonempty : argv≠[]
  count : argv.length ≤ 1048576
  sizes : ∀ a∈argv, a.length ≤ 536870912

def encodeAll (commands : List (List Bytes)) : Bytes := commands.flatMap encodeCommand

/-- The parser state and the bytes still to be consumed stand for these commands. -/
inductive Owes : RequestParser → Bytes → List (List Bytes) → Prop where
  | fresh (commands : List (List Bytes)) : Owes .reset (encodeAll commands) commands
  | arguments (done args : List Bytes) (commands : List (List Bytes)) (h : args≠[]) :
      Owes ⟨done,args.length,-1⟩ (encodeBulks args++encodeAll commands) ((done++args)::commands)
  | payload (done : List Bytes) (a : Bytes) (args : List Bytes) (commands : List (List Bytes)) :
      Owes ⟨done,args.length+1,a.length⟩ (a++crlf++(encodeBulks args++encodeAll commands))
        ((done++a::args)::commands)

theorem lf_notMem_natDecimal (n : ℕ) : lf∉natDecimal n := by
  intro h
  exact absurd (natDecimal_digits n lf h) (by decide)

theorem parseLong_natDecimal {n : ℕ} (h : n < 2^63) : parseLong (natDecimal n)=some (n : ℤ) := by
  have hd := natDecimal_digits n
  have hread := readDigits_natDecimal n
  cases hs : natDecimal n with
  | nil => exact absurd hs (natDecimal_ne_nil n)
  | cons c cs =>
    rw [hs] at hd hread
    have hc : c≠45 := by
      intro hc
      have hdig := hd c mem_cons_self
      rw [hc] at hdig
      exact absurd hdig (by decide)
    have hmatch : parseLong (c::cs)=(readDigits 0 (c::cs)).bind fun v =>
        if v < 2^63 then some (v : ℤ) else none := by
      rw [parseLong.eq_def]
      split
      · rename_i h0
        exact absurd h0 (cons_ne_nil _ _)
      · rename_i ds h0
        exact absurd (List.cons.inj h0).1 hc
      · rfl
    rw [hmatch,hread,Option.bind_some,if_pos h]

theorem findCrlf_line {line : Bytes} (h : lf∉line) (rest : Bytes) :
    findCrlf (line++crlf++rest)=some line.length := by
  have hraw : lf∉line++[cr] := by
    rw [mem_append,mem_singleton]
    rintro (h' | h')
    · exact h h'
    · exact absurd h' (by decide)
  have hshape : line++crlf++rest=(line++[cr])++lf::rest := by simp [crlf]
  rw [findCrlf,hshape,findIdx_lf hraw]
  simp [getD_eq_getElem?_getD]

theorem findCrlf_none {s : Bytes} (h : lf∉s) : findCrlf s=none := by
  have hnone : s.findIdx? (·==lf)=none := by
    rw [findIdx?_eq_none_iff]
    intro c hc
    exact beq_eq_false_iff_ne.mpr fun he => h (he ▸ hc)
  rw [findCrlf,hnone]

/-- Received bytes of a stream that starts with a line hold the whole line or a proper
part of it. -/
theorem line_cut {s future line tail : Bytes} (hlf : lf∉line)
    (h : s++future=line++crlf++tail) :
    (∃ s', s=line++crlf++s' ∧ s'++future=tail) ∨
      (lf∉s ∧ s.length ≤ line.length+1 ∧ future≠[]) := by
  rcases append_eq_append_iff.mp h with ⟨a,h1,h2⟩ | ⟨c,h1,h2⟩
  · rcases eq_nil_or_concat a with rfl | ⟨init,c,rfl⟩
    · left
      exact ⟨[],by rw [append_nil] at h1 ⊢; exact h1.symm,by rw [h2]; rfl⟩
    · right
      have hsplit : line++[cr]=s++init := by
        have h3 : (line++[cr])++[lf]=(s++init)++[c] := by
          simpa [crlf] using h1
        exact append_inj_left' h3 rfl
      refine ⟨?_,?_,?_⟩
      · intro hmem
        have hm : lf∈line++[cr] := by
          rw [hsplit]
          exact mem_append_left _ hmem
        rcases mem_append.mp hm with hm | hm
        · exact hlf hm
        · exact absurd (mem_singleton.mp hm) (by decide)
      · have hlen := congrArg List.length hsplit
        simp only [length_append,length_singleton] at hlen
        omega
      · rw [h2]
        simp
  · exact Or.inl ⟨c,h1,h2.symm⟩

theorem prefix_received {s future pre tail : Bytes} (h : s++future=pre++tail)
    (hlen : pre.length ≤ s.length) : ∃ x, s=pre++x ∧ x++future=tail := by
  rcases append_eq_append_iff.mp h with ⟨x,h1,h2⟩ | ⟨x,h1,h2⟩
  · have hl := congrArg List.length h1
    rw [length_append] at hl
    have hx : x=[] := length_eq_zero_iff.mp (by omega)
    rw [hx,append_nil] at h1
    rw [hx,nil_append] at h2
    exact ⟨[],by rw [append_nil,h1],h2⟩
  · exact ⟨x,h1,h2.symm⟩

/-- What a call may report while it works on a command with `n` arguments to read: the
command and the state after it, or a wait for bytes that are still to come. -/
def Progress (n : ℕ) (s future : Bytes) (argv : List Bytes) (commands : List (List Bytes)) :
    Outcome → Prop
  | (.complete found,p,rest) =>
    found=argv ∧ p=.reset ∧ rest++future=encodeAll commands ∧ rest.length+n ≤ s.length ∧
      rest <:+ s
  | (.incomplete,p,rest) => Owes p (rest++future) (argv::commands) ∧ future≠[] ∧ rest <:+ s
  | (.error _,_,_) => False

variable {commands : List (List Bytes)} {argv : List Bytes} {s future : Bytes}

theorem Progress.mono {n n' : ℕ} {s s' future : Bytes} {o : Outcome}
    (h : Progress n' s' future argv commands o) (hs : s' <:+ s) (hl : s'.length+n ≤ s.length+n') :
    Progress n s future argv commands o := by
  obtain ⟨status,p,rest⟩ := o
  cases status with
  | complete found =>
    have hr : rest.length+n' ≤ s'.length := h.2.2.2.1
    exact ⟨h.1,h.2.1,h.2.2.1,by omega,h.2.2.2.2.trans hs⟩
  | incomplete => exact ⟨h.1,h.2.1,h.2.2.trans hs⟩
  | error text => exact h

theorem bulkHeader_cut {a s future tail : Bytes} (p : RequestParser) (ha : a.length ≤ 536870912)
    (h : s++future=36::natDecimal a.length++crlf++tail) :
    (∃ s', bulkHeader p s=.ok ((a.length : ℤ),s') ∧ s'++future=tail ∧ s' <:+ s ∧
        s'.length < s.length) ∨
      (bulkHeader p s=.error (.incomplete,p,s) ∧ future≠[]) := by
  have hline : lf∉36::natDecimal a.length := by
    rw [mem_cons]
    rintro (h' | h')
    · exact absurd h' (by decide)
    · exact lf_notMem_natDecimal _ h'
  rcases line_cut hline h with ⟨s',rfl,hs'⟩ | ⟨hlf,hlen,hfut⟩
  · left
    refine ⟨s',?_,hs',suffix_append _ _,by simp [crlf]; omega⟩
    have hpay : ((36::natDecimal a.length++crlf++s').drop 1).take
        ((36::natDecimal a.length).length-1)=natDecimal a.length := by
      simp [append_assoc]
    have hdrop : (36::natDecimal a.length++crlf++s').drop
        ((36::natDecimal a.length).length+2)=s' := by
      have hl : (36::natDecimal a.length).length+2=(36::natDecimal a.length++crlf).length := by
        simp [crlf]
      rw [hl,drop_left]
    have hbound : ¬((a.length : ℤ) < 0 ∨ maxBulkLength < (a.length : ℤ)) := by
      have hmax : maxBulkLength=536870912 := by decide
      rw [hmax]
      omega
    rw [bulkHeader,findCrlf_line hline]
    dsimp only
    rw [hpay,parseLong_natDecimal (by omega),hdrop]
    simp [hbound]
  · right
    refine ⟨?_,hfut⟩
    have hdig := natDecimal_length (by decide : 0 < 9) (by omega : a.length < 10^9)
    rw [bulkHeader,findCrlf_none hlf]
    dsimp only
    rw [awaitLine,if_neg]
    rw [length_cons] at hlen
    have hmax : maxInlineRequest=65536 := by decide
    rw [hmax]
    omega

theorem readBulks_payload {args : List Bytes} {future : Bytes}
    (ih : ∀ done s, s++future=encodeBulks args++encodeAll commands → Progress args.length s future (done++args) commands (readBulks args.length ⟨done,args.length,-1⟩ s))
    (done : List Bytes) (a s : Bytes)
    (h : s++future=a++crlf++(encodeBulks args++encodeAll commands)) :
    Progress (args.length+1) s future (done++a::args) commands
      (readBulks (args.length+1) ⟨done,args.length+1,a.length⟩ s) := by
  have hne : ¬((a.length : ℤ)=-1) := by omega
  have hlen : (a++crlf).length=a.length+2 := by simp [crlf]
  rw [readBulks,if_neg hne]
  dsimp only
  rw [Int.toNat_natCast]
  split
  · rename_i hshort
    refine ⟨?_,?_⟩
    · rw [h]
      exact Owes.payload done a args commands
    · refine ⟨?_,suffix_refl s⟩
      intro hf
      have hl := congrArg List.length h
      rw [hf,append_nil,length_append,hlen] at hl
      omega
  · rename_i henough
    obtain ⟨x,rfl,hx⟩ := prefix_received h (by omega)
    have htake : (a++crlf++x).take a.length=a := by
      rw [append_assoc,take_left]
    have hdrop : (a++crlf++x).drop (a.length+2)=x := by
      rw [← hlen,drop_left]
    have hnext := ih (done++[a]) x hx
    have hcount : (args.length+1 : ℤ)-1=args.length := by omega
    rw [append_assoc,singleton_append] at hnext
    rw [htake,hdrop,hcount]
    refine hnext.mono (suffix_append _ _) ?_
    rw [length_append,hlen]
    omega

theorem readBulks_arguments {future : Bytes} (args : List Bytes) :
    (∀ a∈args, a.length ≤ 536870912) → ∀ (done : List Bytes) (s : Bytes),
    s++future=encodeBulks args++encodeAll commands →
      Progress args.length s future (done++args) commands
        (readBulks args.length ⟨done,args.length,-1⟩ s) := by
  induction args with
  | nil =>
    intro _ done s h
    rw [length_nil,readBulks]
    exact ⟨(append_nil done).symm,rfl,h,le_refl _,suffix_refl s⟩
  | cons a args ih =>
    intro hsizes done s h
    have htail := ih fun b hb => hsizes b (mem_cons_of_mem a hb)
    have hshape : s++future=36::natDecimal a.length++crlf++
        (a++crlf++(encodeBulks args++encodeAll commands)) := by
      rw [h]
      simp [encodeBulks,append_assoc]
    rcases bulkHeader_cut ⟨done,((a::args).length : ℤ),-1⟩ (hsizes a mem_cons_self) hshape
      with ⟨s',hok,hs',hsuf,hlt⟩ | ⟨herr,hfut⟩
    · have hnext := readBulks_payload htail done a s' hs'
      have hsame : readBulks (a::args).length ⟨done,((a::args).length : ℤ),-1⟩ s=
          readBulks (args.length+1) ⟨done,(args.length : ℤ)+1,a.length⟩ s' := by
        have hne : ¬((a.length : ℤ)=-1) := by omega
        rw [length_cons,readBulks,if_pos rfl,readBulks,if_neg hne]
        rw [length_cons] at hok
        rw [hok]
        rfl
      rw [hsame]
      exact hnext.mono hsuf (by rw [length_cons]; omega)
    · rw [length_cons] at herr ⊢
      rw [readBulks,if_pos rfl,herr]
      refine ⟨?_,hfut,suffix_refl s⟩
      rw [h]
      exact Owes.arguments done (a::args) commands (cons_ne_nil _ _)

/-- What one `parse` call may report on a stream of commands. -/
def Parsed (s future : Bytes) (commands : List (List Bytes)) : Outcome → Prop
  | (.complete argv,p,rest) =>
    p=.reset ∧ rest <:+ s ∧ rest.length < s.length ∧
      ∃ tail, commands=argv::tail ∧ rest++future=encodeAll tail
  | (.incomplete,p,rest) =>
    Owes p (rest++future) commands ∧ rest <:+ s ∧ (future=[] → commands=[] ∧ rest=[])
  | (.error _,_,_) => False

theorem Progress.parsed {n : ℕ} {o : Outcome} (h : Progress n s future argv commands o)
    (hn : 0 < n) : Parsed s future (argv::commands) o := by
  obtain ⟨status,p,rest⟩ := o
  cases status with
  | complete found =>
    have hr : rest.length+n ≤ s.length := h.2.2.2.1
    exact ⟨h.2.1,h.2.2.2.2,by omega,commands,by rw [h.1],h.2.2.1⟩
  | incomplete => exact ⟨h.1,h.2.2,fun hf => absurd hf h.2.1⟩
  | error text => exact h

theorem parseMultibulk_fresh (hs : Sendable argv) (h : s++future=encodeAll (argv::commands)) :
    Parsed s future (argv::commands) (parseMultibulk .reset s) := by
  have hpos : 0 < argv.length := length_pos_iff.mpr hs.nonempty
  have hcount := hs.count
  have hline : lf∉42::natDecimal argv.length := by
    rw [mem_cons]
    rintro (h' | h')
    · exact absurd h' (by decide)
    · exact lf_notMem_natDecimal _ h'
  have hshape : s++future=42::natDecimal argv.length++crlf++
      (encodeBulks argv++encodeAll commands) := by
    rw [h]
    simp [encodeAll,encodeCommand,append_assoc]
  have hzero : RequestParser.reset.multibulkLen=0 := rfl
  rw [parseMultibulk,if_pos hzero]
  rcases line_cut hline hshape with ⟨s',rfl,hs'⟩ | ⟨hlf,hlen,hfut⟩
  · have hpay : ((42::natDecimal argv.length++crlf++s').drop 1).take
        ((42::natDecimal argv.length).length-1)=natDecimal argv.length := by
      simp [append_assoc]
    have hdrop : (42::natDecimal argv.length++crlf++s').drop
        ((42::natDecimal argv.length).length+2)=s' := by
      have hl : (42::natDecimal argv.length).length+2=
          (42::natDecimal argv.length++crlf).length := by simp [crlf]
      rw [hl,drop_left]
    have hmax : ¬maxMultibulkLength < (argv.length : ℤ) := by
      have hm : maxMultibulkLength=1048576 := by decide
      rw [hm]
      omega
    have hnonpos : ¬(argv.length : ℤ) ≤ 0 := by omega
    rw [findCrlf_line hline]
    dsimp only
    rw [hpay,parseLong_natDecimal (by omega),hdrop]
    dsimp only
    rw [if_neg hmax,if_neg hnonpos,Int.toNat_natCast]
    have hbody := readBulks_arguments argv hs.sizes [] s' hs'
    have hmono : Progress argv.length (42::natDecimal argv.length++crlf++s') future argv commands
        (readBulks argv.length ⟨[],argv.length,RequestParser.reset.bulkLen⟩ s') :=
      hbody.mono (suffix_append _ _) (by simp only [length_append]; omega)
    exact hmono.parsed hpos
  · have hdig := natDecimal_length (by decide : 0 < 9) (by omega : argv.length < 10^9)
    rw [findCrlf_none hlf]
    dsimp only
    rw [length_cons] at hlen
    have hmax : ¬maxInlineRequest < s.length := by
      have hm : maxInlineRequest=65536 := by decide
      rw [hm]
      omega
    rw [awaitLine,if_neg hmax]
    refine ⟨?_,suffix_refl s,fun hf => absurd hf hfut⟩
    rw [h]
    exact Owes.fresh _

theorem parse_owes {p : RequestParser} (rounds : ℕ) (hsend : ∀ argv∈commands, Sendable argv)
    (h : Owes p (s++future) commands) :
    ∃ o, parse rounds p s=some o ∧ Parsed s future commands o := by
  generalize hstream : s++future=stream at h
  cases h with
  | fresh =>
    cases s with
    | nil =>
      refine ⟨_,rfl,?_⟩
      refine ⟨?_,suffix_refl _,?_⟩
      · rw [hstream]
        exact Owes.fresh commands
      · intro hf
        rw [hf] at hstream
        cases commands with
        | nil => exact ⟨rfl,rfl⟩
        | cons argv commands => exact absurd hstream (by simp [encodeAll,encodeCommand])
    | cons c s =>
      cases commands with
      | nil => exact absurd hstream (by simp [encodeAll])
      | cons argv commands =>
        have hc : c=42 := by
          have hh := congrArg List.head? hstream
          simpa [encodeAll,encodeCommand] using hh
        refine ⟨parseMultibulk .reset (c::s),?_,
          parseMultibulk_fresh (hsend argv mem_cons_self) hstream⟩
        rw [hc]
        rfl
  | arguments done args commands hne =>
    have hsizes := (hsend _ mem_cons_self).sizes
    have hpos : 0 < args.length := length_pos_iff.mpr hne
    have hbody := readBulks_arguments args
      (fun a ha => hsizes a (mem_append_right _ ha)) done s hstream
    refine ⟨_,?_,hbody.parsed hpos⟩
    have hnz : ((args.length : ℤ)==0)=false := beq_eq_false_iff_ne.mpr (by omega)
    have hne' : ¬(args.length : ℤ)=0 := by omega
    rw [parse,hnz,Bool.and_false,Bool.false_and]
    simp only [Bool.false_eq_true,if_false]
    rw [parseMultibulk,if_neg hne',Int.toNat_natCast]
  | payload done a args commands =>
    have hsizes := (hsend _ mem_cons_self).sizes
    have hbody := readBulks_payload (readBulks_arguments args
      (fun b hb => hsizes b (mem_append_right _ (mem_cons_of_mem a hb)))) done a s hstream
    refine ⟨_,?_,hbody.parsed (Nat.succ_pos _)⟩
    have hnz : (((args.length : ℤ)+1)==0)=false := beq_eq_false_iff_ne.mpr (by omega)
    have hne' : ¬(args.length : ℤ)+1=0 := by omega
    rw [parse,hnz,Bool.and_false,Bool.false_and]
    simp only [Bool.false_eq_true,if_false]
    rw [parseMultibulk,if_neg hne']
    rfl

theorem drop_suffix_pos {buffer rest : Bytes} (h : rest <:+ buffer) :
    buffer.drop (buffer.length-rest.length)=rest := by
  obtain ⟨pre,rfl⟩ := h
  have hl : (pre++rest).length-rest.length=pre.length := by
    rw [length_append]
    omega
  rw [hl,drop_left]

theorem drain_owes (rounds : ℕ) {future : Bytes} (calls : ℕ) : ∀ (q : QueryState)
    (commands : List (List Bytes)), q.unread.length < calls → (∀ argv∈commands, Sendable argv) →
    Owes q.parser (q.unread++future) commands →
    ∃ read left q', q.drain rounds calls=some (read,.incomplete,q') ∧ commands=read++left ∧
      Owes q'.parser (q'.unread++future) left ∧ q'.pos ≤ q'.buffer.length ∧
      (future=[] → left=[] ∧ q'.unread=[]) := by
  induction calls with
  | zero => exact fun q commands h => absurd h (Nat.not_lt_zero _)
  | succ calls ih =>
    intro q commands hcalls hsend h
    obtain ⟨⟨status,p,rest⟩,hparse,hstep⟩ := parse_owes rounds hsend h
    have hq : q.parse rounds=some (status,⟨q.buffer,q.buffer.length-rest.length,p⟩) := by
      rw [QueryState.parse,hparse]
      rfl
    rw [QueryState.drain,hq]
    cases status with
    | complete argv =>
      obtain ⟨rfl,hsuf,hlt,tail,rfl,hrest⟩ := hstep
      have hunread : (⟨q.buffer,q.buffer.length-rest.length,.reset⟩ : QueryState).unread=rest :=
        drop_suffix_pos (hsuf.trans (drop_suffix _ _))
      obtain ⟨read,left,q',hdrain,hsplit,howes,hpos,hend⟩ :=
        ih ⟨q.buffer,q.buffer.length-rest.length,.reset⟩ tail (by rw [hunread]; omega)
          (fun a ha => hsend a (mem_cons_of_mem argv ha))
          (by rw [hunread,hrest]; exact Owes.fresh tail)
      refine ⟨argv::read,left,q',?_,?_,howes,hpos,hend⟩
      · dsimp only
        rw [hdrain]
        rfl
      · rw [hsplit]
        rfl
    | incomplete =>
      obtain ⟨howes,hsuf,hend⟩ := hstep
      have hunread : (⟨q.buffer,q.buffer.length-rest.length,p⟩ : QueryState).unread=rest :=
        drop_suffix_pos (hsuf.trans (drop_suffix _ _))
      refine ⟨[],commands,_,rfl,rfl,?_,Nat.sub_le _ _,?_⟩
      · rw [hunread]
        exact howes
      · rw [hunread]
        exact hend
    | error text => exact absurd hstep (by simp [Parsed])

theorem trimQueryBuffer_unread {q : QueryState} (h : q.pos ≤ q.buffer.length) :
    q.trimQueryBuffer.unread=q.unread ∧ q.trimQueryBuffer.parser=q.parser ∧
      q.trimQueryBuffer.pos ≤ q.trimQueryBuffer.buffer.length := by
  rw [QueryState.trimQueryBuffer]
  split
  · exact ⟨rfl,rfl,h⟩
  · split
    · rename_i hend
      refine ⟨?_,rfl,le_refl _⟩
      rw [QueryState.unread,QueryState.unread,hend,drop_length]
      rfl
    · split
      · exact ⟨rfl,rfl,Nat.zero_le _⟩
      · exact ⟨rfl,rfl,h⟩

theorem feedAll_owes (rounds : ℕ) (reads : List Bytes) : ∀ (q : QueryState)
    (commands : List (List Bytes)), (∀ argv∈commands, Sendable argv) →
    q.pos ≤ q.buffer.length → Owes q.parser (q.unread++reads.flatten) commands →
    (reads=[] → commands=[] ∧ q.unread=[]) →
    ∃ statuses q', q.feedAll rounds reads=some (commands,statuses,q') ∧
      (∀ status∈statuses, status=.incomplete) ∧ q'.unread=[] ∧ q'.pos ≤ q'.buffer.length := by
  induction reads with
  | nil =>
    intro q commands _ hpos _ hend
    obtain ⟨rfl,hu⟩ := hend rfl
    exact ⟨[],q,rfl,nofun,hu,hpos⟩
  | cons bytes reads ih =>
    intro q commands hsend hpos howes _
    have hunread : ({ q with buffer := q.buffer++bytes } : QueryState).unread=q.unread++bytes :=
      drop_append_of_le_length hpos
    rw [flatten_cons,← append_assoc,← hunread] at howes
    have hcalls : ({ q with buffer := q.buffer++bytes } : QueryState).unread.length <
        q.buffer.length+bytes.length+1 := by
      rw [QueryState.unread,length_drop,length_append]
      omega
    obtain ⟨read,left,q',hdrain,hsplit,howes',hpos',hend⟩ :=
      drain_owes rounds _ _ commands hcalls hsend howes
    obtain ⟨htu,htp,htpos⟩ := trimQueryBuffer_unread hpos'
    rw [hsplit] at hsend
    obtain ⟨statuses,q'',hfeed,hall,hu,hfin⟩ := ih q'.trimQueryBuffer left
      (fun a ha => hsend a (mem_append_right _ ha)) htpos (by rw [htu,htp]; exact howes')
      (fun hnil => by rw [htu]; exact hend (by rw [hnil]; rfl))
    refine ⟨.incomplete::statuses,q'',?_,?_,hu,hfin⟩
    · rw [QueryState.feedAll,QueryState.feed,hdrain,Option.map_some,Option.bind_some,hfeed,hsplit]
      rfl
    · intro status hs
      rcases mem_cons.mp hs with hs | hs
      · exact hs
      · exact hall status hs

/-- However the encodings of a list of commands are cut into reads, the reads deliver exactly
these commands in order, every read ends waiting for more and no byte is left unconsumed. -/
theorem feedAll_fragments (rounds : ℕ) {commands : List (List Bytes)}
    (hsend : ∀ argv∈commands, Sendable argv) {reads : List Bytes}
    (hcut : reads.flatten=encodeAll commands) :
    ∃ statuses q, QueryState.init.feedAll rounds reads=some (commands,statuses,q) ∧
      (∀ status∈statuses, status=.incomplete) ∧ q.pos=q.buffer.length := by
  obtain ⟨statuses,q,hfeed,hall,hu,hpos⟩ := feedAll_owes rounds reads .init commands hsend
    (le_refl _) (by rw [hcut]; exact Owes.fresh commands) (by
      intro hnil
      rw [hnil] at hcut
      cases commands with
      | nil => exact ⟨rfl,rfl⟩
      | cons argv commands => exact absurd hcut (by simp [encodeAll,encodeCommand]))
  exact ⟨statuses,q,hfeed,hall,le_antisymm hpos (drop_eq_nil_iff.mp hu)⟩

theorem feedAll_fragments_two : ∃ statuses q, QueryState.init.feedAll 0
    [ascii "*",ascii "2\r\n$3\r",ascii "\nG",ascii "ET\r\n$1\r\nk\r\n*1\r\n$4\r\nPI",ascii "NG\r\n"]=
      some ([[ascii "GET",ascii "k"],[ascii "PING"]],statuses,q) ∧
    (∀ status∈statuses, status=.incomplete) ∧ q.pos=q.buffer.length := by
  refine feedAll_fragments 0 ?_ (by decide)
  intro argv h
  rcases mem_cons.mp h with rfl | h
  · exact ⟨by decide,by decide,by decide⟩
  · rw [mem_singleton.mp h]
    exact ⟨by decide,by decide,by decide⟩

end Mnemos.Request
