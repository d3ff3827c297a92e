import Mnemos.Replies

/-!
# Replies read back

What the writer's calls for a tree of replies leave in the output is read back
by `parseReply` up to the end of the tree and not a byte further, and no cut of
it is taken for a reply or for an error.
-/

namespace Mnemos

open Request List

/-- A parser reads a value from these bytes and leaves all that follows; a cut of them is incomplete.
Unless it is sure to, the parser may also stop inside them. -/
def ReadsBack {A : Type} (parse : Bytes → Except ReplyFailure (A×Bytes)) (sure : Prop)
    (bytes : Bytes) (value : A) : Prop :=
  (∀ suffix,parse (bytes++suffix)=.ok (value,suffix) ∨
    ¬sure ∧ parse (bytes++suffix)=.error .incomplete) ∧
  ∀ cut future,cut++future=bytes → future≠[] → parse cut=.error .incomplete

namespace ReadsBack

variable {parse : Bytes → Except ReplyFailure (Reply×Bytes)} {sure sure' : Prop}

theorem done {A : Type} (value : A) :
    ReadsBack (fun rest => .ok (value,rest)) sure [] value := by
  refine ⟨fun suffix => .inl rfl,fun cut future h hfuture => ?_⟩
  exact absurd (append_eq_nil_iff.mp h).2 hfuture

theorem text (make : Bytes → Reply) (s : Bytes) :
    ReadsBack (fun rest => if (rest.length : ℤ) < s.length+2 then .error .incomplete
      else .ok (make (rest.take s.length),rest.drop (s.length+2))) sure (s++crlf) (make s) := by
  constructor
  · intro suffix
    have hlength : (s++crlf++suffix).length=s.length+(suffix.length+2) := by simp [crlf]
    have hdrop : (s++crlf++suffix).drop (s.length+2)=suffix := by simp [crlf]
    dsimp only
    rw [if_neg (by omega),hdrop,append_assoc,take_left]
    exact .inl rfl
  · intro cut future h hfuture
    have hlength := congrArg List.length h
    have hpos := length_pos_iff.mpr hfuture
    simp only [length_append,crlf,length_cons,length_nil] at hlength
    exact if_pos (by omega)

theorem line {lead : UInt8} {body payload : Bytes} {value : Reply}
    {next : Bytes → Bytes → Except ReplyFailure (Reply×Bytes)} (hnil : parse []=.error .incomplete)
    (hparse : ∀ s,parse (lead::s)=match readLine (lead::s) with
      | none => .error .incomplete
      | some (line,rest) => next line rest)
    (hlf : lf∉lead::body) (h : ReadsBack (next body) sure payload value) :
    ReadsBack parse sure (lead::body++crlf++payload) value := by
  have hline : ∀ rest,parse (lead::body++crlf++rest)=next body rest := by
    intro rest
    have hread : readLine (lead::body++crlf++rest)=some (body,rest) := by
      rw [readLine,findCrlf_line hlf]
      simp [crlf]
    rw [cons_append,cons_append] at hread ⊢
    rw [hparse,hread]
  constructor
  · intro suffix
    rw [append_assoc,hline]
    exact h.1 suffix
  · intro cut future hcut hfuture
    rcases line_cut hlf hcut with ⟨rest,rfl,hrest⟩|⟨hcutlf,-,-⟩
    · rw [hline]
      exact h.2 rest future hrest hfuture
    · cases cut with
      | nil => exact hnil
      | cons b s =>
        have hlead : b=lead := (List.cons.inj hcut).1
        subst hlead
        rw [hparse,readLine,findCrlf_none hcutlf]

theorem elements {bytes rest : Bytes} {value : Reply} {values : List Reply}
    (h : ReadsBack parse sure bytes value)
    (hrest : ReadsBack (parseElements parse values.length) sure rest values) :
    ReadsBack (parseElements parse (value::values).length) sure (bytes++rest) (value::values) := by
  constructor
  · intro suffix
    rw [length_cons,parseElements,append_assoc]
    rcases h.1 (rest++suffix) with hone|⟨hunsure,hone⟩
    · rw [hone]
      rcases hrest.1 suffix with hmore|⟨hunsure,hmore⟩
      · exact .inl (by simp only [hmore])
      · exact .inr ⟨hunsure,by simp only [hmore]⟩
    · exact .inr ⟨hunsure,by simp only [hone]⟩
  · intro cut future hcut hfuture
    have hbehind : ∀ more,more++future=rest → parseElements parse (values.length+1) (bytes++more)=
        .error .incomplete := by
      intro more hmore
      rw [parseElements]
      rcases h.1 more with hone|⟨-,hone⟩
      · simp only [hone,hrest.2 more future hmore hfuture]
      · simp only [hone]
    rcases append_eq_append_iff.mp hcut with ⟨missing,rfl,rfl⟩|⟨more,rfl,hmore⟩
    · by_cases hmissing : missing=[]
      · subst hmissing
        simpa using hbehind [] rfl
      · rw [length_cons,parseElements,h.2 cut missing rfl hmissing]
    · exact hbehind more hmore.symm

theorem weaken {A : Type} {parse : Bytes → Except ReplyFailure (A×Bytes)} {bytes : Bytes} {value : A}
    (h : ReadsBack parse sure bytes value) (himp : sure' → sure) :
    ReadsBack parse sure' bytes value :=
  ⟨fun suffix => (h.1 suffix).imp id fun hstop => ⟨fun h => hstop.1 (himp h),hstop.2⟩,h.2⟩

end ReadsBack

theorem parseLong_intDecimal {n : ℤ} (hlo : -2^63 ≤ n) (hhi : n < 2^63) :
    parseLong (intDecimal n)=some n := by
  unfold intDecimal
  split
  · have hne : (natDecimal n.natAbs).isEmpty=false := by
      rw [isEmpty_eq_false_iff]
      exact natDecimal_ne_nil _
    rw [parseLong,hne,readDigits_natDecimal,Option.bind_some,if_neg (by decide),
      if_pos (by omega)]
    congr 1
    omega
  · rw [parseLong_natDecimal (by omega)]
    congr 1
    omega

theorem lf_notMem_intDecimal (n : ℤ) : lf∉intDecimal n := by
  unfold intDecimal
  split
  · rw [mem_cons]
    rintro (h|h)
    · exact absurd h (by decide)
    · exact lf_notMem_natDecimal _ h
  · exact lf_notMem_natDecimal _

def Token.leaf (protover : ℕ) : Token → Option Reply
  | .simpleString s => some (.simpleString s)
  | .error msg => some (.error msg)
  | .integer n => some (.integer n)
  | .bulk s => some (.bulk s)
  | .verbatim s format =>
    some (if 3 ≤ protover then .verbatim (format.take 3++ascii ":"++s) else .bulk s)
  | .nullBulk | .nullArray => some .null
  | .boolean b => some (if 3 ≤ protover then .boolean b else .integer (if b then 1 else 0))
  | .bigNumber digits => some (if 3 ≤ protover then .bigNumber digits else .bulk digits)
  | .doubleValue _ | .arrayHeader _ | .mapHeader _ | .setHeader _ | .pushHeader _ => none

def Token.opens (protover : ℕ) : Token → Option (ℤ×(List Reply → Reply))
  | .arrayHeader n => some (n,.array)
  | .mapHeader pairs => some (pairs*2,if 3 ≤ protover then .map else .array)
  | .setHeader n => some (n,if 3 ≤ protover then .set else .array)
  | .pushHeader n => some (n,if 3 ≤ protover then .push else .array)
  | _ => none

/-- What the types of the source can hold; lines have no end of line in them, and the format of a
verbatim string has its three bytes. -/
def Token.Fits : Token → Prop
  | .integer n => -2^63 ≤ n ∧ n < 2^63
  | .bulk s => s.length < 2^63
  | .verbatim s format => 3 ≤ format.length ∧ s.length+4 < 2^63
  | .simpleString s | .error s => cr∉s ∧ lf∉s
  | .bigNumber s => cr∉s ∧ lf∉s ∧ s.length < 2^63
  | .arrayHeader n | .setHeader n | .pushHeader n => n ≤ replyVectorMaxSize
  | .mapHeader pairs => pairs*2 ≤ replyVectorMaxSize
  | .nullBulk | .nullArray | .boolean _ | .doubleValue _ => True

/-- The calls of the writer for replies one after the other, and how they are read back. -/
inductive Written (protover : ℕ) : List Token → List Reply → Prop
  | nil : Written protover [] []
  | leaf {t r ts rs} : t.Fits → t.leaf protover=some r → Written protover ts rs →
      Written protover (t::ts) (r::rs)
  | aggregate {t n make inner children ts rs} : t.Fits → t.opens protover=some (n,make) →
      n=children.length → Written protover inner children → Written protover ts rs →
      Written protover (t::(inner++ts)) (make children::rs)

theorem parseElements_one (parse : Bytes → Except ReplyFailure (Reply×Bytes)) (buf : Bytes) :
    parseElements parse 1 buf=(parse buf).map fun r => ([r.1],r.2) := by
  rw [parseElements]
  cases parse buf <;> rfl

section Tokens

variable [FloatText] {depth protover : ℕ} {sure : Prop}

theorem readsBack_line {lead : UInt8} {body : Bytes} {make : Bytes → Reply}
    (hparse : ∀ s,parseReplyInner (depth+1) (lead::s)=parseLineReply make (lead::s))
    (hlf : lf∉lead::body) :
    ReadsBack (parseReplyInner (depth+1)) sure (lead::body++crlf) (make body) := by
  have h : ReadsBack (parseReplyInner (depth+1)) sure (lead::body++crlf++[]) (make body) :=
    .line rfl hparse hlf (.done (make body))
  rwa [append_nil] at h

theorem readsBack_text {lead : Char} {make : Bytes → Reply}
    (hparse : ∀ s,parseReplyInner (depth+1) (UInt8.ofNat lead.toNat::s)=
      parseText make (UInt8.ofNat lead.toNat::s))
    (hlead : lf≠UInt8.ofNat lead.toNat) {s : Bytes} (hs : s.length < 2^63) :
    ReadsBack (parseReplyInner (depth+1)) sure (appendCount lead s.length++(s++crlf)) (make s) := by
  have hlf : lf∉UInt8.ofNat lead.toNat::intDecimal s.length :=
    not_mem_cons_of_ne_of_not_mem hlead (lf_notMem_intDecimal _)
  refine .line rfl hparse hlf ?_
  have hlong := parseLong_intDecimal (n := s.length) (by omega) (by omega)
  have hpos : ¬(s.length : ℤ) < 0 := by omega
  simp only [hlong,if_neg hpos,Int.toNat_natCast]
  exact .text make s

theorem readsBack_aggregate {lead : Char} {make : List Reply → Reply} {multiplier n : ℤ}
    (hparse : ∀ s,parseReplyInner (depth+1) (UInt8.ofNat lead.toNat::s)=
      parseAggregate (parseReplyInner depth) multiplier make (UInt8.ofNat lead.toNat::s))
    (hlead : lf≠UInt8.ofNat lead.toNat) (hmultiplier : multiplier=1 ∨ multiplier=2) {children : List Reply}
    (hn : n*multiplier=children.length) (hmax : n*multiplier ≤ replyVectorMaxSize) {bytes : Bytes}
    (h : ReadsBack (parseElements (parseReplyInner depth) children.length) sure bytes children) :
    ReadsBack (parseReplyInner (depth+1)) sure (appendCount lead n++bytes) (make children) := by
  have hlf : lf∉UInt8.ofNat lead.toNat::intDecimal n :=
    not_mem_cons_of_ne_of_not_mem hlead (lf_notMem_intDecimal _)
  have hrange : ¬n < 0 ∧ n < 2^63 := by
    simp only [replyVectorMaxSize] at hmax
    rcases hmultiplier with rfl|rfl <;> omega
  refine .line rfl hparse hlf ?_
  have hlong := parseLong_intDecimal (n := n) (by omega) hrange.2
  simp only [hlong,if_neg hrange.1,if_neg (not_lt.mpr hmax)]
  rw [hn,Int.toNat_natCast]
  constructor
  · intro suffix
    rcases h.1 suffix with hread|⟨hunsure,hread⟩
    · exact .inl (by simp only [hread])
    · exact .inr ⟨hunsure,by simp only [hread]⟩
  · intro cut future hcut hfuture
    simp only [h.2 cut future hcut hfuture]

theorem readsBack_integer {n : ℤ} (hlo : -2^63 ≤ n) (hhi : n < 2^63) :
    ReadsBack (parseReplyInner (depth+1)) sure (appendCount ':' n) (.integer n) := by
  have hlf : lf∉(58 : UInt8)::intDecimal n :=
    not_mem_cons_of_ne_of_not_mem (by decide) (lf_notMem_intDecimal n)
  have h : ReadsBack (parseReplyInner (depth+1)) sure (58::intDecimal n++crlf++[]) (.integer n) := by
    refine .line rfl (fun _ => rfl) hlf ?_
    simp only [parseLong_intDecimal hlo hhi]
    exact .done _
  rwa [append_nil] at h

theorem readsBack_bulk {s : Bytes} (hs : s.length < 2^63) :
    ReadsBack (parseReplyInner (depth+1)) sure (appendBulk s) (.bulk s) := by
  unfold appendBulk
  rw [append_assoc]
  exact readsBack_text (fun _ => rfl) (by decide) hs

theorem readsBack_minusOne :
    ReadsBack (parseReplyInner (depth+1)) sure (ascii "$-1"++crlf) .null ∧
      ReadsBack (parseReplyInner (depth+1)) sure (ascii "*-1"++crlf) .null := by
  have hlong : parseLong (ascii "-1")=some (-1) := by decide +kernel
  have hbulk : ReadsBack (parseReplyInner (depth+1)) sure (36::ascii "-1"++crlf++[]) .null := by
    refine .line rfl (fun _ => rfl) (by decide +kernel) ?_
    simp only [hlong]
    exact .done _
  have harray : ReadsBack (parseReplyInner (depth+1)) sure (42::ascii "-1"++crlf++[]) .null := by
    refine .line rfl (fun _ => rfl) (by decide +kernel) ?_
    simp only [hlong]
    exact .done _
  rw [append_nil] at hbulk harray
  exact ⟨hbulk,harray⟩

theorem Token.leaf_readsBack {t : Token} {r : Reply} (hfits : t.Fits)
    (hleaf : t.leaf protover=some r) :
    ReadsBack (parseReplyInner (depth+1)) sure (t.encode protover) r := by
  have hunderscore : lf∉[(95 : UInt8)] := by decide
  have hnull : ReadsBack (parseReplyInner (depth+1)) sure (95::[]++crlf) .null :=
    readsBack_line (fun _ => rfl) hunderscore
  cases t with
  | simpleString s =>
    cases hleaf
    exact readsBack_line (fun _ => rfl) (not_mem_cons_of_ne_of_not_mem (by decide) hfits.2)
  | error s =>
    cases hleaf
    exact readsBack_line (fun _ => rfl) (not_mem_cons_of_ne_of_not_mem (by decide) hfits.2)
  | integer n =>
    cases hleaf
    exact readsBack_integer hfits.1 hfits.2
  | bulk s =>
    cases hleaf
    exact readsBack_bulk hfits
  | verbatim s format =>
    cases hleaf
    have hlength : (format.take 3++ascii ":"++s).length=s.length+4 := by
      have hformat := hfits.1
      have hcolon : (ascii ":").length=1 := by decide
      simp only [length_append,length_take,hcolon]
      omega
    have htext : ReadsBack (parseReplyInner (depth+1)) sure (appendCount '='
        (format.take 3++ascii ":"++s).length++(format.take 3++ascii ":"++s++crlf))
        (.verbatim (format.take 3++ascii ":"++s)) :=
      readsBack_text (fun _ => rfl) (by decide) (by rw [hlength]; exact hfits.2)
    by_cases hversion : 3 ≤ protover
    · simp only [encode,if_pos hversion,if_neg (not_lt.mpr hversion)]
      rw [hlength] at htext
      simpa using htext
    · simp only [encode,if_neg hversion,if_pos (not_le.mp hversion)]
      exact readsBack_bulk (by have := hfits.2; omega)
  | nullBulk =>
    cases hleaf
    simp only [encode]
    split
    · exact hnull
    · exact readsBack_minusOne.1
  | nullArray =>
    cases hleaf
    simp only [encode]
    split
    · exact hnull
    · exact readsBack_minusOne.2
  | boolean b =>
    cases hleaf
    simp only [encode]
    split
    · cases b with
      | false => exact @readsBack_line _ _ _ 35 (ascii "f") _ (fun _ => rfl) (by decide)
      | true => exact @readsBack_line _ _ _ 35 (ascii "t") _ (fun _ => rfl) (by decide)
    · cases b with
      | false => exact readsBack_integer (n := 0) (by decide) (by decide)
      | true => exact readsBack_integer (n := 1) (by decide) (by decide)
  | bigNumber digits =>
    cases hleaf
    simp only [encode]
    split
    · exact readsBack_line (fun _ => rfl) (not_mem_cons_of_ne_of_not_mem (by decide) hfits.2.1)
    · exact readsBack_bulk hfits.2.2
  | _ => cases hleaf

theorem Token.opens_readsBack {t : Token} {n : ℤ} {make : List Reply → Reply} {children : List Reply}
    {bytes : Bytes} (hfits : t.Fits) (hopens : t.opens protover=some (n,make))
    (hn : n=children.length)
    (h : ReadsBack (parseElements (parseReplyInner depth) children.length) sure bytes children) :
    ReadsBack (parseReplyInner (depth+1)) sure (t.encode protover++bytes) (make children) := by
  -- in the second version every header is that of an array
  have harray : n ≤ replyVectorMaxSize →
      ReadsBack (parseReplyInner (depth+1)) sure (appendCount '*' n++bytes) (.array children) := by
    intro hmax
    exact readsBack_aggregate (fun _ => rfl) (by decide) (.inl rfl) ((mul_one n).trans hn)
      (by rwa [mul_one]) h
  cases t with
  | arrayHeader n =>
    cases hopens
    exact harray hfits
  | mapHeader pairs =>
    cases hopens
    simp only [encode]
    split
    · exact readsBack_aggregate (fun _ => rfl) (by decide) (.inr rfl) hn hfits h
    · exact harray hfits
  | setHeader n =>
    cases hopens
    simp only [encode]
    split
    · exact readsBack_aggregate (fun _ => rfl) (by decide) (.inl rfl) ((mul_one n).trans hn)
        (by rwa [mul_one]) h
    · exact harray hfits
  | pushHeader n =>
    cases hopens
    simp only [encode]
    split
    · exact readsBack_aggregate (fun _ => rfl) (by decide) (.inl rfl) ((mul_one n).trans hn)
        (by rwa [mul_one]) h
    · exact harray hfits
  | _ => cases hopens

theorem Written.readsBack {tokens : List Token} {replies : List Reply}
    (h : Written protover tokens replies) (depth : ℕ) :
    ReadsBack (parseElements (parseReplyInner depth) replies.length)
      ((tokens.flatMap (Token.encode protover)).length < depth)
      (tokens.flatMap (Token.encode protover)) replies := by
  induction h generalizing depth with
  | nil => exact .done []
  | leaf hfits hleaf _ ih =>
    rw [flatMap_cons]
    refine .elements ?_ ((ih depth).weaken (by rw [length_append]; omega))
    cases depth with
    | zero => exact ⟨fun _ => .inr ⟨by omega,rfl⟩,fun _ _ _ _ => rfl⟩
    | succ depth => exact Token.leaf_readsBack hfits hleaf
  | @aggregate t _ _ inner _ ts _ hfits hopens hn _ _ ihinner ih =>
    rw [flatMap_cons,flatMap_append,←append_assoc]
    refine .elements ?_ ((ih depth).weaken (by rw [length_append]; omega))
    cases depth with
    | zero => exact ⟨fun _ => .inr ⟨by omega,rfl⟩,fun _ _ _ _ => rfl⟩
    | succ depth =>
      refine Token.opens_readsBack hfits hopens hn ((ihinner depth).weaken ?_)
      have hheader : 0 < (t.encode protover).length := by
        cases t <;> cases hopens <;> simp only [Token.encode] <;> (try split) <;> exact Nat.succ_pos _
      simp only [length_append]
      omega

/-- What was written for a tree is read back, and everything behind it is left; a cut of it is
incomplete, which is no error. -/
theorem reply_codec {tokens : List Token} {reply : Reply} (h : Written protover tokens [reply]) :
    (∀ suffix,parseReply (tokens.flatMap (Token.encode protover)++suffix)=.ok (reply,suffix)) ∧
      ∀ cut future,cut++future=tokens.flatMap (Token.encode protover) → future≠[] →
        parseReply cut=.error .incomplete := by
  constructor
  · intro suffix
    have hread := (h.readsBack ((tokens.flatMap (Token.encode protover)++suffix).length+1)).1 suffix
    rw [length_singleton,parseElements_one] at hread
    unfold parseReply
    rcases hread with hread|⟨hunsure,-⟩
    · generalize parseReplyInner _ _=result at hread ⊢
      cases result with
      | error e => cases hread
      | ok r =>
        cases hread
        rfl
    · exact absurd (by rw [length_append]; omega) hunsure
  · intro cut future hcut hfuture
    have hread := (h.readsBack (cut.length+1)).2 cut future hcut hfuture
    rw [length_singleton,parseElements_one] at hread
    unfold parseReply
    generalize parseReplyInner _ cut=result at hread ⊢
    cases result with
    | error e =>
      cases hread
      rfl
    | ok r => cases hread

end Tokens

section Reference

attribute [local instance] DoubleText.reference

theorem reply_codec_map :
    parseReply (([.mapHeader 1,.bulk (ascii "k"),
      .verbatim (ascii "x") (ascii "txt")] : List Token).flatMap (Token.encode 3)++ascii "+OK")=
        .ok (.map [.bulk (ascii "k"),.verbatim (ascii "txt:x")],ascii "+OK") := by
  have hkey : (Token.bulk (ascii "k")).Fits := by
    unfold Token.Fits
    decide
  have hvalue : (Token.verbatim (ascii "x") (ascii "txt")).Fits := by
    unfold Token.Fits
    decide
  have hheader : (Token.mapHeader 1).Fits := by
    unfold Token.Fits
    decide
  have hwritten : Written 3 [.mapHeader 1,.bulk (ascii "k"),.verbatim (ascii "x") (ascii "txt")]
      [.map [.bulk (ascii "k"),.verbatim (ascii "txt:x")]] :=
    .aggregate hheader rfl rfl (.leaf hkey rfl (.leaf hvalue rfl .nil)) .nil
  exact (reply_codec hwritten).1 _

/-- A verbatim string is read back with its format. -/
theorem verbatim_keeps_format :
    parseReply (Token.encode 3 (.verbatim (ascii "x") (ascii "txt")))=
      .ok (.verbatim (ascii "txt:x"),[]) ∧ ascii "txt:x"≠ascii "x" :=
  ⟨rfl,by decide⟩

end Reference

end Mnemos
