import Mnemos.Bytes
import Mnemos.Wildcards

/-!
# The language of a glob pattern

A pattern is read as a sequence of items, and its language is the product of
theirs.
-/

open List

namespace Mnemos.Glob

open Wildcards

inductive Member
  | single (b : UInt8)
  | range (lo hi : UInt8)

inductive Item
  | star
  | any
  | cls (negated : Bool) (members : List Member)
  | byte (b : UInt8)
  | unclosed

def Member.Holds (f : UInt8 → UInt8) (c : UInt8) : Member → Prop
  | single b => f b=f c
  | range lo hi =>
    (charValue (f lo) ≤ charValue (f c) ∧ charValue (f c) ≤ charValue (f hi)) ∨
      (charValue (f hi) ≤ charValue (f c) ∧ charValue (f c) ≤ charValue (f lo))

def Item.Accepts (f : UInt8 → UInt8) (c : UInt8) : Item → Prop
  | any => True
  | cls negated members => (∃ m∈members,m.Holds f c) ↔ negated=false
  | byte b => f b=f c
  | star | unclosed => False

def Item.language (f : UInt8 → UInt8) : Item → Language UInt8
  | star => ⊤
  | item => letters (item.Accepts f)

def language (f : UInt8 → UInt8) (items : List Item) : Language UInt8 :=
  (items.map (Item.language f)).prod

/-- The members of a class up to its closing bracket, and the pattern behind it. -/
def readClass : Bytes → Option (List Member×Bytes)
  | [] => none
  | [b] => if b=93 then some ([],[]) else none
  | [b,x] =>
    if b=93 then some ([],[x])
    else if b=92 then none
    else (readClass [x]).map fun r => (.single b::r.1,r.2)
  | b::x::y::rest =>
    if b=93 then some ([],x::y::rest)
    else if b=92 then (readClass (y::rest)).map fun r => (.single x::r.1,r.2)
    else if x=45 ∧ y≠93 then (readClass rest).map fun r => (.range b y::r.1,r.2)
    else (readClass (x::y::rest)).map fun r => (.single b::r.1,r.2)

def classText (rest : Bytes) : Bytes := if rest.head?==some 94 then rest.drop 1 else rest

/-- A text read as items in front of a rest, with brackets as classes or as bytes. -/
inductive Reads (classes : Bool) : Bytes → List Item → Bytes → Prop
  | nil {rest} : Reads classes rest [] rest
  | star {text items rest} : Reads classes text items rest →
      Reads classes (42::text) (.star::items) rest
  | any {text items rest} : Reads classes text items rest →
      Reads classes (63::text) (.any::items) rest
  | cls {text members after items rest} : classes=true →
      readClass (classText text)=some (members,after) → Reads classes after items rest →
      Reads classes (91::text) (.cls (text.head?==some 94) members::items) rest
  | unclosed {text items rest} : classes=true → readClass (classText text)=none →
      Reads classes [] items rest → Reads classes (91::text) (.unclosed::items) rest
  | escape {b text items rest} : Reads classes text items rest →
      Reads classes (92::b::text) (.byte b::items) rest
  | byte {b text items rest} : b≠42 → b≠63 → (b=91 → classes=false) → (b=92 → text=[]) →
      Reads classes text items rest → Reads classes (b::text) (.byte b::items) rest

/-- The loop of `globMatch` that says when its steps do not suffice. -/
def matchRun (f : UInt8 → UInt8) : ℕ → Bytes → Bytes → Option (Bytes×Bytes) → Option Bool
  | 0,_,_,_ => none
  | _+1,pattern,[],_ => some (pattern.all (·==42))
  | steps+1,pattern,c::target,star =>
    if pattern.head?=some 42 then
      let after := pattern.dropWhile (·==42)
      matchRun f steps after (c::target) (some (after,c::target))
    else
      match matchItem f c pattern with
      | some after => matchRun f steps after target star
      | none =>
        match star with
        | none => some false
        | some (after,[]) => matchRun f steps after [] star
        | some (after,_::skipped) => matchRun f steps after skipped (some (after,skipped))

theorem matchLoop_of_matchRun {f : UInt8 → UInt8} {steps : ℕ} {pattern target : Bytes}
    {star : Option (Bytes×Bytes)} {b : Bool} (h : matchRun f steps pattern target star=some b) :
    matchLoop f steps pattern target star=b := by
  fun_induction matchRun f steps pattern target star <;> simp_all +zetaDelta [matchLoop]

section Reading

variable {f : UInt8 → UInt8} {c : UInt8}

theorem inRange_iff (lo hi : UInt8) :
    inRange (f lo) (f hi) (f c)=true ↔ (Member.range lo hi).Holds f c := by
  unfold inRange Member.Holds
  split <;> simp <;> omega

open Classical in
theorem matchClass_eq (text : Bytes) (matched : Bool) :
    matchClass f c text matched=
      (readClass text).map fun r => (matched || decide (∃ m∈r.1,m.Holds f c),r.2) := by
  have hrange : ∀ lo hi,inRange (f lo) (f hi) (f c)=decide ((Member.range lo hi).Holds f c) :=
    fun lo hi => Bool.eq_iff_iff.mpr ((inRange_iff lo hi).trans decide_eq_true_iff.symm)
  have hsingle : ∀ b,(f b==f c)=decide ((Member.single b).Holds f c) := by
    intro b
    rw [Bool.eq_iff_iff,beq_iff_eq,decide_eq_true_iff,Member.Holds]
  fun_induction matchClass f c text matched with
  | case10 b x y rest matched hclose hslash hdash ih =>
    rw [readClass,if_neg hclose,if_neg hslash,if_neg (by simpa using hdash),ih,hsingle]
    simp [Option.map_map,Function.comp_def,Bool.or_assoc]
  | _ => simp_all [readClass,Option.map_map,Function.comp_def,Bool.or_assoc]

theorem readClass_length {text after : Bytes} {members : List Member}
    (h : readClass text=some (members,after)) : after.length < text.length ∧ 93∈text := by
  fun_induction readClass text generalizing members after <;> grind [Option.map_eq_some_iff]

theorem classText_sublist (text : Bytes) : (classText text).Sublist text := by
  unfold classText
  split
  · exact drop_sublist 1 text
  · exact Sublist.refl text

theorem exists_reads (classes : Bool) (text : Bytes) : ∃ items,Reads classes text items [] := by
  induction h : text.length using Nat.strong_induction_on generalizing text with
  | _ n ih =>
    subst h
    cases text with
    | nil => exact ⟨[],.nil⟩
    | cons b rest =>
      have hrest := ih rest.length (by simp) rest rfl
      by_cases hstar : b=42
      · subst hstar
        exact hrest.imp' (.star::·) fun _ => .star
      by_cases hany : b=63
      · subst hany
        exact hrest.imp' (.any::·) fun _ => .any
      by_cases hclass : b=91 ∧ classes=true
      · obtain ⟨rfl,hclasses⟩ := hclass
        cases hread : readClass (classText rest) with
        | none => exact ⟨[.unclosed],.unclosed hclasses hread .nil⟩
        | some r =>
          have hshorter := (readClass_length hread).1
          have hlength := (classText_sublist rest).length_le
          obtain ⟨items,hitems⟩ := ih r.2.length (by simp; omega) r.2 rfl
          exact ⟨_,.cls hclasses hread hitems⟩
      have hbracket : b=91 → classes=false := fun h => by simpa [h] using hclass
      by_cases hescape : b=92 → rest=[]
      · exact hrest.imp' (.byte b::·) fun _ => .byte hstar hany hbracket hescape
      · cases rest with
        | nil => simp at hescape
        | cons x after =>
          have hslash : b=92 := by
            by_contra hne
            exact hescape fun h => absurd h hne
          subst hslash
          have hitems := ih after.length (by simp only [length_cons]; omega) after rfl
          exact hitems.imp' (.byte x::·) fun _ => .escape

theorem Reads.append {classes : Bool} {text rest after : Bytes} {items items' : List Item}
    (h : Reads classes text items rest) (h' : Reads classes rest items' after) :
    Reads classes text (items++items') after := by
  induction h with
  | nil => exact h'
  | star _ ih => exact .star (ih h')
  | any _ ih => exact .any (ih h')
  | cls hclasses hread _ ih => exact .cls hclasses hread (ih h')
  | unclosed hclasses hread _ ih => exact .unclosed hclasses hread (ih h')
  | escape _ ih => exact .escape (ih h')
  | byte hstar hany hbracket hescape _ ih => exact .byte hstar hany hbracket hescape (ih h')

end Reading

section Loop

variable {f : UInt8 → UInt8} {c : UInt8} {pattern : Bytes} {items : List Item}

theorem language_cons (item : Item) (items : List Item) :
    language f (item::items)=item.language f*language f items := by
  unfold language
  rw [map_cons,prod_cons]

theorem language_eq_letters {item : Item} (h : item≠.star) :
    item.language f=letters (item.Accepts f) := by
  cases item with
  | star => exact absurd rfl h
  | _ => rfl

theorem matchItem_class (text : Bytes) :
    matchItem f c (91::text)=(readClass (classText text)).bind fun r =>
      open Classical in
      if (Item.cls (text.head?==some 94) r.1).Accepts f c then some r.2 else none := by
  have hne : ¬(91 : UInt8)=63 := by decide
  simp only [matchItem,if_neg hne,if_true,matchClass_eq,classText]
  generalize (text.head?==some 94)=negated
  cases readClass (if negated=true then text.drop 1 else text) with
  | none => rfl
  | some r => by_cases h : ∃ m∈r.1,m.Holds f c <;> cases negated <;> simp [Item.Accepts,h]

theorem matchItem_reads (f : UInt8 → UInt8) (c : UInt8) (h : Reads true pattern items [])
    (hitems : items≠[]) (hstar : pattern.head?≠some 42) :
    ∃ item rest after,items=item::rest ∧ item≠.star ∧ Reads true after rest [] ∧
      after.length < pattern.length ∧
      (item.Accepts f c ∧ matchItem f c pattern=some after ∨
        ¬item.Accepts f c ∧ matchItem f c pattern=none) := by
  cases h with
  | nil => exact absurd rfl hitems
  | star _ => exact absurd rfl hstar
  | any h => exact ⟨.any,_,_,rfl,nofun,h,by simp,.inl ⟨trivial,rfl⟩⟩
  | cls hclasses hread h =>
    have hshorter := (readClass_length hread).1
    have hlength := (classText_sublist _).length_le.trans_lt' hshorter
    refine ⟨_,_,_,rfl,nofun,h,by simp; omega,?_⟩
    rw [matchItem_class,hread,Option.bind_some]
    split <;> simp_all
  | unclosed hclasses hread h =>
    refine ⟨.unclosed,_,_,rfl,nofun,h,by simp,.inr ⟨id,?_⟩⟩
    rw [matchItem_class,hread,Option.bind_none]
  | escape h =>
    refine ⟨.byte _,_,_,rfl,nofun,h,by simp only [length_cons]; omega,?_⟩
    simp [matchItem,Item.Accepts,em]
  | byte hstar' hany hbracket hescape h =>
    refine ⟨.byte _,_,_,rfl,nofun,h,by simp,?_⟩
    have hclass : ¬_=(91 : UInt8) := fun h => absurd (hbracket h) nofun
    unfold matchItem
    dsimp only
    rw [if_neg hany,if_neg hclass]
    split
    · simp at hescape
    · simp [Item.Accepts,em]

theorem reads_dropWhile (f : UInt8 → UInt8) (h : Reads true pattern items [])
    (hstar : pattern.head?=some 42) :
    ∃ rest,Reads true (pattern.dropWhile (·==42)) rest [] ∧
      (pattern.dropWhile (·==42)).length < pattern.length ∧ language f items=⊤*language f rest := by
  induction pattern generalizing items with
  | nil => cases hstar
  | cons b text ih =>
    obtain rfl : b=42 := Option.some.inj hstar
    cases h with
    | byte hne _ _ _ _ => exact absurd rfl hne
    | star h =>
      rw [language_cons,dropWhile_cons_of_pos rfl]
      by_cases hhead : text.head?=some 42
      · obtain ⟨rest,hrest,hlength,hlanguage⟩ := ih h hhead
        refine ⟨rest,hrest,hlength.trans (by simp),?_⟩
        rw [hlanguage]
        exact top_mul_top_mul
      · have htext : text.dropWhile (·==42)=text := by
          cases text with
          | nil => rfl
          | cons x text => exact dropWhile_cons_of_neg (by simpa using hhead)
        rw [htext]
        exact ⟨_,h,by simp,rfl⟩

theorem mem_language_cons {item : Item} (h : item≠.star) (target : Bytes) :
    target∈language f (item::items) ↔
      ∃ c rest,target=c::rest ∧ item.Accepts f c ∧ rest∈language f items := by
  rw [language_cons,language_eq_letters h,mem_letters_mul]

theorem nil_mem_language (h : Reads true pattern items []) :
    pattern.all (·==42)=true ↔ []∈language f items := by
  induction pattern generalizing items with
  | nil =>
    cases h
    simp [language]
  | cons b text ih =>
    cases h with
    | star h =>
      rw [language_cons,Item.language,mem_top_mul]
      simpa using ih h
    | _ =>
      rw [mem_language_cons (by simp)]
      simp_all

theorem matchItem_cases (f : UInt8 → UInt8) (c : UInt8) (h : Reads true pattern items [])
    (hstar : pattern.head?≠some 42) :
    (matchItem f c pattern=none ∧ ∀ target,c::target∉language f items) ∨
      ∃ item rest after,items=item::rest ∧ item≠.star ∧ Reads true after rest [] ∧
        after.length < pattern.length ∧ item.Accepts f c ∧ matchItem f c pattern=some after := by
  by_cases hitems : items=[]
  · subst hitems
    cases h
    exact .inl ⟨rfl,fun target h => by simp [language] at h⟩
  · obtain ⟨item,rest,after,rfl,hne,hreads,hlength,hcase⟩ := matchItem_reads f c h hitems hstar
    rcases hcase with ⟨haccepts,hmatch⟩|⟨hrefused,hmatch⟩
    · exact .inr ⟨item,rest,after,rfl,hne,hreads,hlength,haccepts,hmatch⟩
    · refine .inl ⟨hmatch,fun target htarget => hrefused ?_⟩
      obtain ⟨c',rest',heq,haccepts,-⟩ := (mem_language_cons hne _).mp htarget
      rw [(List.cons.inj heq).1]
      exact haccepts

/-- A star that the loop remembers: the pattern behind it and where it stopped. -/
structure Star where
  after : Bytes
  target : Bytes
  items : List Item
  reads : Reads true after items []

def Star.places (s : Star) : Bytes×Bytes := (s.after,s.target)

/-- Between the star and the loop's place stand single letters only. -/
def Star.Leads (f : UInt8 → UInt8) (s : Star) (items : List Item) (target : Bytes) : Prop :=
  ∃ pre : List (Language UInt8),(∀ l∈pre,∃ p,l=letters p) ∧
    language f s.items=pre.prod*language f items ∧ target=s.target.drop pre.length

def Star.Resumes (f : UInt8 → UInt8) (s : Star) : Prop :=
  ∃ k,s.target.drop (k+1)∈language f s.items

theorem Star.Leads.drop_mem {s : Star} {target : Bytes} (h : s.Leads f items target)
    (hresumes : s.Resumes f) : ∃ k,target.drop k∈language f items := by
  obtain ⟨pre,hpre,hlanguage,rfl⟩ := h
  obtain ⟨k,hk⟩ := hresumes
  rw [hlanguage] at hk
  refine ⟨k+1,?_⟩
  rw [drop_drop,Nat.add_comm,←drop_drop]
  exact drop_mem_of_letters hpre hk

/-- The loop at a place of pattern and target, with the star that it remembers. -/
structure Reached (f : UInt8 → UInt8) (bound : ℕ) (pattern target : Bytes) (star : Option Star)
    (items : List Item) : Prop where
  reads : Reads true pattern items []
  leads : ∀ s∈star,s.Leads f items target
  left : ∀ s∈star,s.after.length+s.target.length ≤ bound
  size : pattern.length+target.length ≤ bound

def cost (bound : ℕ) (pattern target : Bytes) (star : Option Star) : ℕ :=
  star.elim target.length (·.target.length)*bound+target.length+pattern.length

/-- The loop answers whether what is left matches or the star can swallow more. -/
def Answers (f : UInt8 → UInt8) (steps : ℕ) (pattern target : Bytes) (star : Option Star)
    (items : List Item) : Prop :=
  ∃ b,matchRun f steps pattern target (star.map Star.places)=some b ∧
    (b=true ↔ target∈language f items ∨ ∃ s∈star,s.Resumes f)

theorem Star.reached {s : Star} {bound : ℕ} (h : s.after.length+s.target.length ≤ bound) :
    Reached f bound s.after s.target (some s) s.items := by
  refine ⟨s.reads,?_,?_,h⟩
  · rintro _ ⟨⟩
    exact ⟨[],nofun,by rw [prod_nil,one_mul],rfl⟩
  · rintro _ ⟨⟩
    exact h

theorem Star.answer_iff (s : Star) :
    (s.target∈language f s.items ∨ ∃ s'∈some s,s'.Resumes f) ↔
      ∃ k,s.target.drop k∈language f s.items := by
  constructor
  · rintro (h|⟨_,⟨⟩,k,hk⟩)
    · exact ⟨0,h⟩
    · exact ⟨k+1,hk⟩
  · rintro ⟨k,hk⟩
    cases k with
    | zero => exact .inl hk
    | succ k => exact .inr ⟨s,rfl,k,hk⟩

variable {bound : ℕ} {target : Bytes} {star : Option Star}

/-- A star of the pattern takes the place of the remembered one: what that one could swallow, the new
one can swallow as well. -/
theorem Reached.visit (h : Reached f bound pattern (c::target) star items)
    (hhead : pattern.head?=some 42) :
    ∃ s : Star,Reached f bound s.after s.target (some s) s.items ∧
      cost bound s.after s.target (some s) < cost bound pattern (c::target) star ∧
      ∀ steps,Answers f steps s.after s.target (some s) s.items →
        Answers f (steps+1) pattern (c::target) star items := by
  obtain ⟨rest,hrest,hlength,hlanguage⟩ := reads_dropWhile f h.reads hhead
  have hsize := h.size
  refine ⟨⟨_,c::target,rest,hrest⟩,Star.reached (by dsimp only; omega),?_,?_⟩
  · have hleft : (c::target).length ≤ star.elim (c::target).length (·.target.length) := by
      cases star with
      | none => exact le_rfl
      | some s =>
        obtain ⟨pre,-,-,htarget⟩ := h.leads s rfl
        rw [htarget]
        exact (drop_sublist _ _).length_le
    have hmul := Nat.mul_le_mul_right bound hleft
    simp only [cost,Option.elim_some]
    omega
  · rintro steps ⟨b,hrun,hb⟩
    refine ⟨b,?_,hb.trans ?_⟩
    · unfold matchRun
      rw [if_pos hhead]
      exact hrun
    have hearlier : (∃ s∈star,s.Resumes f) → c::target∈language f items := by
      rintro ⟨s,hs,hresumes⟩
      have hmore := mem_top_mul.mpr ((h.leads s hs).drop_mem hresumes)
      rwa [hlanguage,top_mul_top_mul,←hlanguage] at hmore
    rw [or_iff_left_of_imp hearlier,hlanguage,mem_top_mul]
    exact Star.answer_iff ⟨_,c::target,rest,hrest⟩

theorem Reached.resume {s : Star} (h : Reached f bound pattern (c::target) (some s) items)
    (hhead : pattern.head?≠some 42) (hmatch : matchItem f c pattern=none)
    (hmiss : c::target∉language f items) :
    ∃ s' : Star,Reached f bound s'.after s'.target (some s') s'.items ∧
      cost bound s'.after s'.target (some s') < cost bound pattern (c::target) (some s) ∧
      ∀ steps,Answers f steps s'.after s'.target (some s') s'.items →
        Answers f (steps+1) pattern (c::target) (some s) items := by
  obtain ⟨pre,-,-,htarget⟩ := h.leads s rfl
  have hleft := h.left s rfl
  obtain ⟨after,stopped,starItems,hreads⟩ := s
  cases stopped with
  | nil => simp at htarget
  | cons x skipped =>
    simp only [length_cons] at hleft
    refine ⟨⟨after,skipped,starItems,hreads⟩,Star.reached (by dsimp only; omega),?_,?_⟩
    · simp only [cost,Option.elim_some,length_cons,Nat.succ_mul]
      omega
    · rintro steps ⟨b,hrun,hb⟩
      refine ⟨b,?_,hb.trans ((Star.answer_iff _).trans ?_)⟩
      · unfold matchRun
        rw [if_neg hhead,hmatch]
        exact hrun
      · simp [hmiss,Star.Resumes]

theorem Reached.advance {item : Item} {rest : List Item} {after : Bytes}
    (h : Reached f bound pattern (c::target) star (item::rest)) (hhead : pattern.head?≠some 42)
    (hne : item≠.star) (hrest : Reads true after rest []) (hlength : after.length < pattern.length)
    (haccepts : item.Accepts f c) (hmatch : matchItem f c pattern=some after) :
    Reached f bound after target star rest ∧
      cost bound after target star < cost bound pattern (c::target) star ∧
      ∀ steps,Answers f steps after target star rest →
        Answers f (steps+1) pattern (c::target) star (item::rest) := by
  have hsize := h.size
  simp only [length_cons] at hsize
  refine ⟨⟨hrest,?_,h.left,by omega⟩,?_,?_⟩
  · intro s hs
    obtain ⟨pre,hpre,hlanguage,htarget⟩ := h.leads s hs
    refine ⟨pre++[letters (item.Accepts f)],?_,?_,?_⟩
    · simpa [or_imp,forall_and] using hpre
    · rw [hlanguage,language_cons,language_eq_letters hne]
      simp [mul_assoc]
    · rw [length_append,←drop_drop,←htarget]
      rfl
  · cases star with
    | none =>
      simp only [cost,Option.elim_none,length_cons,Nat.succ_mul]
      omega
    | some s =>
      simp only [cost,Option.elim_some,length_cons]
      omega
  · rintro steps ⟨b,hrun,hb⟩
    refine ⟨b,?_,hb.trans ?_⟩
    · unfold matchRun
      rw [if_neg hhead,hmatch]
      exact hrun
    · rw [mem_language_cons hne]
      simp [haccepts]

theorem Reached.answers {steps : ℕ} (h : Reached f bound pattern target star items)
    (hsteps : cost bound pattern target star < steps) : Answers f steps pattern target star items := by
  induction steps generalizing pattern target star items with
  | zero => omega
  | succ steps ih =>
    cases target with
    | nil =>
      refine ⟨_,rfl,?_⟩
      rw [nil_mem_language h.reads]
      refine ⟨.inl,fun hor => hor.elim id ?_⟩
      rintro ⟨s,hs,hresumes⟩
      obtain ⟨k,hk⟩ := (h.leads s hs).drop_mem hresumes
      rwa [drop_nil] at hk
    | cons c target =>
      by_cases hhead : pattern.head?=some 42
      · obtain ⟨s,hs,hcost,hnext⟩ := h.visit hhead
        exact hnext steps (ih hs (by omega))
      rcases matchItem_cases f c h.reads hhead with ⟨hmatch,hmiss⟩|
        ⟨item,rest,after,rfl,hne,hrest,hlength,haccepts,hmatch⟩
      · cases star with
        | none =>
          refine ⟨false,?_,by simp [hmiss]⟩
          unfold matchRun
          rw [if_neg hhead,hmatch]
          rfl
        | some s =>
          obtain ⟨s',hs,hcost,hnext⟩ := h.resume hhead hmatch (hmiss target)
          exact hnext steps (ih hs (by omega))
      · obtain ⟨hs,hcost,hnext⟩ := h.advance hhead hne hrest hlength haccepts hmatch
        exact hnext steps (ih hs (by omega))

end Loop

end Mnemos.Glob

namespace Mnemos

open Glob

theorem globMatch_iff {pattern : Bytes} {items : List Item} (h : Glob.Reads true pattern items [])
    (target : Bytes) (caseInsensitive : Bool) :
    (∃ steps,matchRun (fold caseInsensitive) steps pattern target none=
      some (globMatch pattern target caseInsensitive)) ∧
      (globMatch pattern target caseInsensitive=true ↔ target∈language (fold caseInsensitive) items) := by
  have hreached : Reached (fold caseInsensitive) (pattern.length+target.length) pattern target none
      items := ⟨h,nofun,nofun,le_rfl⟩
  have hsteps : cost (pattern.length+target.length) pattern target none <
      (target.length+2)*(target.length+pattern.length+3) := by
    have hmul : target.length*(pattern.length+target.length) ≤
        target.length*(target.length+pattern.length+3) := Nat.mul_le_mul_left _ (by omega)
    simp only [cost,Option.elim_none]
    rw [Nat.add_mul]
    omega
  obtain ⟨b,hrun,hb⟩ := hreached.answers hsteps
  have hloop : globMatch pattern target caseInsensitive=b := matchLoop_of_matchRun hrun
  rw [hloop]
  exact ⟨⟨_,hrun⟩,by simpa using hb⟩

/-- Every pattern is read as a sequence of items, and the matcher returns, with the answer whether the
target is a word of theirs; an unclosed bracket has no words. -/
theorem glob_language (pattern target : Bytes) (caseInsensitive : Bool) :
    ∃ items,Glob.Reads true pattern items [] ∧
      (∃ steps,matchRun (fold caseInsensitive) steps pattern target none=
        some (globMatch pattern target caseInsensitive)) ∧
      (globMatch pattern target caseInsensitive=true ↔
        target∈language (fold caseInsensitive) items) := by
  obtain ⟨items,hitems⟩ := exists_reads true pattern
  exact ⟨items,hitems,globMatch_iff hitems target caseInsensitive⟩

theorem not_mem_unclosed (f : UInt8 → UInt8) (items : List Item) (target : Bytes) :
    target∉language f (items++[.unclosed]) := by
  intro h
  unfold language at h
  rw [map_append,prod_append] at h
  obtain ⟨_,-,b,hb,-⟩ := Language.mem_mul.mp h
  obtain ⟨c,_,-,haccepts,-⟩ := (mem_language_cons (by simp) b).mp hb
  exact haccepts

/-- A pattern with an unclosed bracket matches nothing, so it is read as if the bracket were a byte
exactly for the targets that do not match then either. -/
theorem unclosed_bracket {before behind target : Bytes} {items rest : List Item}
    (hbefore : Glob.Reads true (before++91::behind) items (91::behind)) (hbehind : 93∉behind)
    (_ : Glob.Reads false behind rest []) (caseInsensitive : Bool) :
    globMatch (before++91::behind) target caseInsensitive=false ∧
      ((globMatch (before++91::behind) target caseInsensitive=true ↔
          target∈language (fold caseInsensitive) (items++.byte 91::rest)) ↔
        target∉language (fold caseInsensitive) (items++.byte 91::rest)) := by
  have hread : readClass (classText behind)=none := by
    rw [Option.eq_none_iff_forall_ne_some]
    intro r hr
    exact hbehind ((classText_sublist behind).subset (readClass_length hr).2)
  have hreads := hbefore.append (.unclosed rfl hread .nil)
  have hfalse : globMatch (before++91::behind) target caseInsensitive=false := by
    rw [Bool.eq_false_iff]
    intro htrue
    exact not_mem_unclosed _ items target ((globMatch_iff hreads target caseInsensitive).2.mp htrue)
  rw [hfalse]
  simp

/-- A lone bracket does not match itself. -/
theorem bracket_not_literal :
    globMatch (ascii "[") (ascii "[") false=false ∧ ascii "["∈language (fold false) [.byte 91] := by
  refine ⟨by decide +kernel,(mem_language_cons (by simp) _).mpr ⟨91,[],rfl,rfl,?_⟩⟩
  rfl

theorem unclosed_bracket_other :
    globMatch (ascii "[") (ascii "x") false=false ∧
      (globMatch (ascii "[") (ascii "x") false=true ↔ ascii "x"∈language (fold false) [.byte 91]) := by
  have h := @unclosed_bracket [] [] (ascii "x") [] [] .nil nofun .nil false
  refine ⟨h.1,h.2.mpr fun hmem => ?_⟩
  obtain ⟨c,rest,heq,haccepts,-⟩ := (mem_language_cons (by simp) _).mp hmem
  cases heq
  have hequal : (91 : UInt8)=120 := haccepts
  exact absurd hequal (by decide)

end Mnemos
