import Mnemos.Reading

/-!
# Moves between keys

SMOVE, LMOVE and RPOPLPUSH take an element from one key and give it to another
that may be missing or the same.
-/

open List Function

namespace Mnemos

namespace Slot

variable {x : Slot} {now : ℤ} {fresh : Data}

def seen (x : Slot) (now : ℤ) : Slot := if x.Due now then .empty else x

def elements (x : Slot) : List Bytes :=
  match x.value with
  | some (.set t) => t.members
  | some (.list l) => l.toVector
  | _ => []

def orNew (x : Slot) (fresh : Data) : Slot := if x.value.isNone then ⟨some fresh,none⟩ else x

theorem seen_not_due : ¬(x.seen now).Due now := by
  unfold seen
  split
  · exact not_due_empty
  · assumption

theorem seen_of_not_due (h : ¬x.Due now) : x.seen now=x := if_neg h

theorem live_eq_seen : x.live now=(x.seen now).value := by
  unfold live seen
  split <;> rfl

theorem seen_eq_of_value (h : (x.seen now).value≠none) : x.seen now=x := by
  unfold seen at h ⊢
  split
  · rename_i hdue
    rw [if_pos hdue] at h
    exact absurd rfl h
  · rfl

theorem orNew_not_due (h : ¬x.Due now) : ¬(x.orNew fresh).Due now := by
  unfold orNew
  split
  · rintro ⟨t,ht,-⟩
    cases ht
  · exact h

theorem orNew_value : (x.orNew fresh).value=some (x.value.getD fresh) := by
  unfold orNew
  cases h : x.value <;> simp [h]

theorem elements_orNew (h : (Slot.mk (some fresh) none).elements=[]) :
    (x.orNew fresh).elements=x.elements := by
  unfold orNew
  split
  · rename_i hnone
    rw [h,elements,Option.isNone_iff_eq_none.mp hnone]
  · rfl

end Slot

open Cmd

section Lookups

variable {A : Type} (key : Bytes) (typed : Value → Option A) {fresh : Value} {ctx : Context}
  {s : Keyspace}

theorem Lookup.of_list {o : Option Data} {now : ℤ} {l : ListValue} :
    Lookup.of Value.list (o.map (Value.mk · now))=.found l ↔ o=some (.list l) := by
  rcases o with _ | data
  · simp [Lookup.of]
  · cases data <;> simp [Lookup.of,Value.list]

theorem lookupWrite_slots : (lookupWrite key ctx s).2.slots=
    update s.slots (ctx.db,key) ((s.slots (ctx.db,key)).seen ctx.now) := by
  rw [(lookupWrite_effect key ctx s).slots_eq,purged,Slot.seen]
  split
  · rfl
  · exact (update_eq_self ..).symm

theorem lookupTyped_slots : (lookupTyped key typed ctx s).2.slots=
    update s.slots (ctx.db,key) ((s.slots (ctx.db,key)).seen ctx.now) :=
  lookupWrite_slots key

theorem lookupTyped_fst : (lookupTyped key typed ctx s).1=
    .of typed (((s.slots (ctx.db,key)).seen ctx.now).value.map (Value.mk · ctx.now)) := by
  rw [←Slot.live_eq_seen]
  exact congrArg (Lookup.of typed) (lookupWrite_fst key ctx s)

theorem lookupOrCreate_spec :
    (lookupOrCreate key typed fresh ctx s).2.slots=update s.slots (ctx.db,key)
        (((s.slots (ctx.db,key)).seen ctx.now).orNew fresh.data) ∧
      (lookupOrCreate key typed fresh ctx s).1=.of typed
        ((((s.slots (ctx.db,key)).seen ctx.now).orNew fresh.data).value.map
          (Value.mk · ctx.now)) := by
  have hslots := @lookupTyped_slots _ key typed ctx s
  have hfound := @lookupTyped_fst _ key typed ctx s
  generalize (s.slots (ctx.db,key)).seen ctx.now=x at *
  rw [lookupOrCreate,bind_apply,hfound]
  cases hvalue : x.value with
  | none =>
    have hset := (setKey_effect key ctx (lookupTyped key typed ctx s).2 fresh).slots_eq
    have hself : ((setKey key fresh ctx (lookupTyped key typed ctx s).2).2.slots
        (ctx.db,key)).seen ctx.now=⟨some fresh.data,none⟩ := by
      rw [hset,update_self]
      exact Slot.seen_of_not_due fun h => by simp [Slot.Due] at h
    rw [Slot.orNew,hvalue]
    refine ⟨(lookupWrite_slots ..).trans ?_,congrArg (Lookup.of typed) ?_⟩
    · rw [hself,hset,hslots,update_idem,update_idem]
      rfl
    · rw [lookupWrite_fst,Slot.live_eq_seen,hself]
      rfl
  | some data =>
    have hpure : ∀ t : Keyspace,createIfMissing key typed fresh
        (.of typed ((some data).map (Value.mk · ctx.now))) ctx t=
          (.of typed ((some data).map (Value.mk · ctx.now)),t) := by
      intro t
      cases htyped : typed ⟨data,ctx.now⟩ <;> simp [Lookup.of,htyped,createIfMissing,pure_apply]
    have hnew : x.orNew fresh.data=x := by
      rw [Slot.orNew,hvalue]
      rfl
    rw [hpure,hnew,hvalue]
    exact ⟨hslots,rfl⟩

theorem deleteIfEmpty_slots {data : Data} (h : (Value.of data).type≠.string) :
    (deleteIfEmpty key data ctx s).2.slots=
      if (Value.of data).elementCount=0 then update s.slots (ctx.db,key) .empty else s.slots := by
  rw [deleteIfEmpty,if_neg h]
  split
  · exact (eraseKey_effect key ctx s).slots_eq
  · rfl

end Lookups

section Shifted

variable {slots : ℕ×Bytes → Slot} {now : ℤ} {src dst : ℕ×Bytes} {x : Slot} {fresh data : Data}

def found (slots : ℕ×Bytes → Slot) (now : ℤ) (src dst : ℕ×Bytes) (x : Slot) : Slot :=
  if dst=src then x else (slots dst).seen now

/-- The slots after a write to the source and one through `lookupOrCreate` to the destination. -/
def shifted (slots : ℕ×Bytes → Slot) (now : ℤ) (src dst : ℕ×Bytes) (x : Slot) (fresh data : Data) :
    ℕ×Bytes → Slot :=
  update (update slots src x) dst ⟨some data,((found slots now src dst x).orNew fresh).deadline⟩

/-- What moves keep: the deadline of a key that stays, and every other key. -/
structure Confined (now : ℤ) (src dst : ℕ×Bytes) (slots slots' : ℕ×Bytes → Slot) : Prop where
  deadlines : ∀ p,p=src ∨ p=dst → (slots p).live now≠none → (slots' p).value≠none →
    (slots' p).deadline=(slots p).deadline
  others : ∀ p,p≠src → p≠dst → slots' p=slots p

theorem shifted_src (h : src≠dst) : shifted slots now src dst x fresh data src=x := by
  rw [shifted,update_of_ne h,update_self]

theorem shifted_dst (h : ¬x.Due now) : ((shifted slots now src dst x fresh data dst).seen now)=
    ⟨some data,((found slots now src dst x).orNew fresh).deadline⟩ := by
  rw [shifted,update_self]
  refine Slot.seen_of_not_due (Slot.orNew_not_due ?_)
  unfold found
  split
  · exact h
  · exact Slot.seen_not_due

theorem confined_shifted (hx : x.value≠none → x.deadline=(slots src).deadline)
    (hsame : src=dst → (x.orNew fresh).deadline=(slots src).deadline) :
    Confined now src dst slots (shifted slots now src dst x fresh data) where
  deadlines := by
    intro p hp hthere hstill
    by_cases hpd : p=dst
    · subst hpd
      rw [shifted,update_self]
      dsimp only
      unfold found
      split
      · rename_i h
        rw [h]
        exact hsame h.symm
      · rw [Slot.live_eq_seen] at hthere
        rw [Slot.orNew,if_neg (by simpa using hthere),Slot.seen_eq_of_value hthere]
    · obtain rfl := hp.resolve_right hpd
      rw [shifted_src hpd] at hstill ⊢
      exact hx hstill
  others := fun p hp hp' => by rw [shifted,update_of_ne hp',update_of_ne hp]

theorem orNew_found {P : Data → Prop} (hfresh : P fresh) (hx : ∀ v,x.value=some v → P v)
    (hdst : ∀ v,(slots dst).value=some v → P v)
    (h : ((found slots now src dst x).orNew fresh).value=some data) : P data := by
  unfold Slot.orNew at h
  split at h
  · cases h
    exact hfresh
  · unfold found at h
    split at h
    · exact hx data h
    · refine hdst data ?_
      rwa [Slot.seen_eq_of_value (by rw [h]; exact Option.some_ne_none _)] at h

variable {A : Type} {source destination : Bytes} {typed : Value → Option A} {ctx : Context}
  {s t : Keyspace}

theorem lookups_slots :
    (lookupTyped destination typed ctx (lookupTyped source typed ctx s).2).2.slots=
      update (update s.slots (ctx.db,source) ((s.slots (ctx.db,source)).seen ctx.now))
        (ctx.db,destination) ((s.slots (ctx.db,destination)).seen ctx.now) := by
  rw [lookupTyped_slots,lookupTyped_slots]
  congr 1
  by_cases h : (ctx.db,destination)=(ctx.db,source)
  · rw [h,update_self,Slot.seen_of_not_due Slot.seen_not_due]
  · rw [update_of_ne h]

theorem lookups_src :
    (lookupTyped destination typed ctx (lookupTyped source typed ctx s).2).2.slots (ctx.db,source)=
      (s.slots (ctx.db,source)).seen ctx.now := by
  rw [lookups_slots,update_apply]
  split
  · rename_i h
    rw [h]
  · rw [update_self]

theorem store_shifted (fresh : Value) (data : Data) (hx : ¬x.Due ctx.now)
    (ht : t.slots=update (lookupTyped destination typed ctx
      (lookupTyped source typed ctx s).2).2.slots (ctx.db,source) x) :
    (lookupOrCreate destination typed fresh ctx t).1=.of typed
        (((found s.slots ctx.now (ctx.db,source) (ctx.db,destination) x).orNew fresh.data).value.map
          (Value.mk · ctx.now)) ∧
      (store destination data ctx (lookupOrCreate destination typed fresh ctx t).2).2.slots=
        shifted s.slots ctx.now (ctx.db,source) (ctx.db,destination) x fresh.data data := by
  rw [lookups_slots] at ht
  have hdst : (t.slots (ctx.db,destination)).seen ctx.now=
      found s.slots ctx.now (ctx.db,source) (ctx.db,destination) x := by
    rw [ht,found,update_apply]
    split
    · exact Slot.seen_of_not_due hx
    · rw [update_self,Slot.seen_of_not_due Slot.seen_not_due]
  refine ⟨hdst ▸ (lookupOrCreate_spec destination typed).2,?_⟩
  rw [(store_effect ..).slots_eq,(lookupOrCreate_spec destination typed).1,update_self,update_idem,
    Slot.orNew_value,hdst,ht,shifted]
  funext p
  simp only [update_apply]
  split
  · rfl
  · split <;> rfl

end Shifted

namespace Commands

variable {ctx : Context} {s : Keyspace}

def taken (t : SetValue) (member : Bytes) (x : Slot) : Slot :=
  if (t.erase member).2.size=0 then .empty else ⟨some (.set (t.erase member).2),x.deadline⟩

def lone (data : Data) : Keyspace :=
  (setExpireAt (ascii "k") 100 ⟨0,0,2⟩ (setKey (ascii "k") (.of data) ⟨0,0,2⟩ blank).2).2

theorem lone_value {data v : Data} (p : ℕ×Bytes) (h : ((lone data).slots p).value=some v) :
    v=data := by
  rw [lone,(setExpireAt_effect ..).slots_eq,(setKey_effect ..).slots_eq,update_idem,
    update_apply] at h
  split at h
  · rw [update_self] at h
    cases h
    rfl
  · cases h

def atEnd (front : Bool) (item : Bytes) (rest : List Bytes) : List Bytes :=
  if front then item::rest else rest++[item]

theorem atEnd_perm (front : Bool) (item : Bytes) (rest : List Bytes) :
    atEnd front item rest ~ item::rest := by
  cases front
  · exact perm_append_singleton item rest
  · exact .refl _

theorem popEnd_spec {fromFront : Bool} {l left : ListValue} {item : Bytes} (h : l.Ok)
    (hpop : popEnd fromFront l=(some item,left)) :
    left.Ok ∧ l.toVector=atEnd fromFront item left.toVector := by
  unfold popEnd at hpop
  cases fromFront with
  | true =>
    obtain ⟨hok,hhead,htail⟩ := h.popFront
    simp only [if_true] at hpop
    rw [hpop] at hok hhead htail
    refine ⟨hok,?_⟩
    rw [htail]
    exact (cons_head?_tail hhead.symm).symm
  | false =>
    obtain ⟨hok,hlast,hinit⟩ := h.popBack
    simp only [Bool.false_eq_true,if_false] at hpop
    rw [hpop] at hok hlast hinit
    refine ⟨hok,?_⟩
    rw [hinit]
    exact (dropLast_append_getLast? item hlast.symm).symm

theorem pushEnd_spec {d : ListValue} {item : Bytes} (h : d.Ok) (hsize : item.length < 2^32)
    (toFront : Bool) :
    (if toFront then d.pushFront item else d.pushBack item).Ok ∧
      (if toFront then d.pushFront item else d.pushBack item).toVector=
        atEnd toFront item d.toVector := by
  cases toFront
  · exact h.pushBack hsize
  · exact h.pushFront hsize

/-- What a finished move of a list element did. -/
structure ListMoved (now : ℤ) (src dst : ℕ×Bytes) (fromFront toFront : Bool) (item : Bytes)
    (slots slots' : ℕ×Bytes → Slot) (rest : List Bytes) : Prop where
  taken : ((slots src).seen now).elements=atEnd fromFront item rest
  given : ((slots' dst).seen now).elements=
    atEnd toFront item (if src=dst then rest else ((slots dst).seen now).elements)
  left : src≠dst → ((slots' src).seen now).elements=rest
  conserved : src≠dst → ((slots' src).seen now).elements++((slots' dst).seen now).elements ~
    ((slots src).seen now).elements++((slots dst).seen now).elements
  emptied : src≠dst → rest=[] → slots' src=.empty
  confined : Confined now src dst slots slots'

theorem moveGeneric_run {source destination item : Bytes} {fromFront toFront : Bool}
    (hdone : (moveGeneric source destination fromFront toFront ctx s).1=.bulk item) :
    ∃ l left d e x c,((s.slots (ctx.db,source)).seen ctx.now).value=some (.list l) ∧
      popEnd fromFront l=(some item,left) ∧
      x=⟨some (.list left),((s.slots (ctx.db,source)).seen ctx.now).deadline⟩ ∧
      ((found s.slots ctx.now (ctx.db,source) (ctx.db,destination) x).orNew
        (.list .empty)).value=some (.list d) ∧
      c=shifted s.slots ctx.now (ctx.db,source) (ctx.db,destination) x (.list .empty)
        (.list (if toFront then d.pushFront item else d.pushBack item)) ∧
      (c (ctx.db,source)).value=some (.list e) ∧
      (moveGeneric source destination fromFront toFront ctx s).2.slots=
        if e.size=0 then update c (ctx.db,source) .empty else c := by
  revert hdone
  unfold moveGeneric
  simp only [bind_apply]
  cases hsrc : (lookupTyped source Value.list ctx s).1 with
  | missing => exact fun h => by cases h
  | wrongType => exact fun h => by cases h
  | found l =>
    have hlive := Lookup.of_list.mp ((lookupTyped_fst ..).symm.trans hsrc)
    simp only [bind_apply]
    cases (lookupTyped destination Value.list ctx _).1 with
    | wrongType => exact fun h => by cases h
    | _ =>
      rcases hpop : popEnd fromFront l with ⟨_ | got,left⟩
      · exact fun h => by cases h
      · simp only [bind_apply]
        generalize hs₁ : (store source (.list left) ctx _).2=s₁
        have hb : s₁.slots=update (lookupTyped destination Value.list ctx
            (lookupTyped source Value.list ctx s).2).2.slots (ctx.db,source)
              ⟨some (.list left),((s.slots (ctx.db,source)).seen ctx.now).deadline⟩ := by
          rw [←hs₁,(store_effect ..).slots_eq,lookups_src,hlive]
          rfl
        have hdue : ¬(Slot.mk (some (.list left))
          ((s.slots (ctx.db,source)).seen ctx.now).deadline).Due ctx.now := Slot.seen_not_due
        cases hd : (lookupOrCreate destination Value.list .makeList ctx s₁).1 with
        | missing => exact fun h => by cases h
        | wrongType => exact fun h => by cases h
        | found d =>
          simp only [bind_apply]
          generalize hs₂ : (store destination _ ctx _).2=s₂
          obtain ⟨hfound,hstore⟩ := store_shifted .makeList
            (.list (if toFront then d.pushFront got else d.pushBack got)) hdue hb
          have hc := (congrArg Keyspace.slots hs₂).symm.trans hstore
          obtain ⟨e,he⟩ : ∃ e,((s₂.slots (ctx.db,source)).seen ctx.now).value=some (.list e) := by
            rw [hc]
            by_cases h : (ctx.db,source)=(ctx.db,destination)
            · rw [h,←h,shifted_dst hdue]
              exact ⟨_,rfl⟩
            · rw [shifted_src h,Slot.seen_of_not_due hdue]
              exact ⟨_,rfl⟩
          have hstays := Slot.seen_eq_of_value (by rw [he]; exact Option.some_ne_none _)
          generalize hs₃ : (notify Notify.kList _ source ctx _).2=s₃
          have hslots : s₃.slots=s₂.slots := by rw [←hs₃]; rfl
          have hagain : (lookupWrite source ctx s₃).1=some ⟨.list e,ctx.now⟩ := by
            rw [lookupWrite_fst,hslots,Slot.live_eq_seen,he]
            rfl
          intro hdone
          cases hdone
          refine ⟨l,left,d,e,_,_,hlive,hpop,rfl,Lookup.of_list.mp (hfound.symm.trans hd),hc,
            hstays ▸ he,?_⟩
          rw [hagain]
          refine (deleteIfEmpty_slots _ (by simp [Value.of,Value.type])).trans ?_
          rw [lookupWrite_slots,hslots,hstays,update_eq_self]
          rfl

theorem listMoved_of_run {now : ℤ} {src dst : ℕ×Bytes} {item : Bytes} {fromFront toFront : Bool}
    {slots c : ℕ×Bytes → Slot} {l left d e : ListValue} {x : Slot}
    (hok : ∀ p l,(slots p).value=some (.list l) → l.Ok)
    (hlive : ((slots src).seen now).value=some (.list l))
    (hpop : popEnd fromFront l=(some item,left))
    (hx : x=⟨some (.list left),((slots src).seen now).deadline⟩)
    (hd : ((found slots now src dst x).orNew (.list .empty)).value=some (.list d))
    (hc : c=shifted slots now src dst x (.list .empty)
      (.list (if toFront then d.pushFront item else d.pushBack item)))
    (he : (c src).value=some (.list e)) :
    ListMoved now src dst fromFront toFront item slots
      (if e.size=0 then update c src .empty else c) left.toVector := by
  have hsrc : (slots src).seen now=slots src := Slot.seen_eq_of_value (by simp [hlive])
  have hl := hok src l (hsrc ▸ hlive)
  obtain ⟨hleft,htaken⟩ := popEnd_spec hl hpop
  have hsize : item.length < 2^32 := by
    refine ListValue.Shape.text_lt hl ?_
    change item∈l.toVector
    rw [htaken,(atEnd_perm ..).mem_iff]
    exact mem_cons_self
  have hseen : ((slots src).seen now).elements=l.toVector := by rw [Slot.elements,hlive]
  have hxdue : ¬x.Due now := by
    rw [hx]
    exact Slot.seen_not_due (x := slots src)
  have hds : d.toVector=if src=dst then left.toVector else ((slots dst).seen now).elements := by
    have h := Slot.elements_orNew (x := found slots now src dst x)
      (rfl : (Slot.mk (some (.list .empty)) none).elements=[])
    rw [Slot.elements,hd] at h
    refine h.trans ?_
    rw [found,hx]
    simp only [eq_comm (a := dst)]
    split <;> rfl
  have hdok : d.Ok := by
    refine orNew_found (P := fun data => ∀ v,data=.list v → v.Ok) ?_ ?_ ?_ hd d rfl
    · rintro v ⟨⟩
      exact ListValue.empty_ok
    · rintro _ hv v rfl
      rw [hx] at hv
      cases hv
      exact hleft
    · rintro _ hv v rfl
      exact hok dst v hv
  obtain ⟨hpok,hpushed⟩ := pushEnd_spec hdok hsize toFront
  generalize (if toFront then d.pushFront item else d.pushBack item)=pushed at *
  -- a source left empty is deleted, unless it is the destination
  obtain ⟨x',hx',hslots⟩ : ∃ x' : Slot,x'=(if src≠dst ∧ left.toVector=[] then .empty else x) ∧
      (if e.size=0 then update c src .empty else c)=
        shifted slots now src dst x' (.list .empty) (.list pushed) := by
    refine ⟨_,rfl,?_⟩
    by_cases hsd : src=dst
    · rw [hc,shifted,hsd,update_self] at he
      cases he
      have hsome : e.size≠0 := by
        rw [hpok.size,hpushed,(atEnd_perm ..).length_eq]
        simp
      rw [if_neg hsome,if_neg (fun h => h.1 hsd),hc]
    · rw [hc,shifted_src hsd,hx] at he
      cases he
      simp only [hleft.size,length_eq_zero_iff,ne_eq,hsd,not_false_eq_true,true_and]
      split
      · rw [hc,shifted,shifted,found,found,if_neg (Ne.symm hsd),if_neg (Ne.symm hsd),
          update_comm (Ne.symm hsd),update_idem]
      · exact hc
  have hxdue' : ¬x'.Due now := by
    rw [hx']
    split
    · exact Slot.not_due_empty
    · exact hxdue
  have hleft' : src≠dst → x'.elements=left.toVector := by
    intro hne
    rw [hx',hx]
    split
    · rename_i h
      exact h.2.symm
    · rfl
  rw [hds] at hpushed
  rw [hslots]
  have hgiven : ((shifted slots now src dst x' (.list .empty) (.list pushed) dst).seen now).elements=
      atEnd toFront item (if src=dst then left.toVector else ((slots dst).seen now).elements) := by
    rw [shifted_dst hxdue',←hpushed]
    rfl
  have hrest (hne : src≠dst) :
      ((shifted slots now src dst x' (.list .empty) (.list pushed) src).seen now).elements=
        left.toVector := by
    rw [shifted_src hne,Slot.seen_of_not_due hxdue',hleft' hne]
  refine ⟨hseen.trans htaken,hgiven,hrest,?_,?_,confined_shifted ?_ ?_⟩
  · intro hne
    rw [hrest hne,hgiven,if_neg hne,hseen,htaken]
    calc left.toVector++atEnd toFront item ((slots dst).seen now).elements
        ~ left.toVector++item::((slots dst).seen now).elements := (atEnd_perm ..).append_left _
      _ ~ item::(left.toVector++((slots dst).seen now).elements) := perm_middle
      _ ~ _ := (atEnd_perm ..).symm.append_right _
  · intro hne hnil
    rw [shifted_src hne,hx',if_pos ⟨hne,hnil⟩]
  · rw [hx',hx,hsrc]
    split
    · exact absurd rfl
    · exact fun _ => rfl
  · intro hsame
    rw [hx',if_neg (fun h => h.1 hsame),hx,hsrc]
    rfl

/-- LMOVE and RPOPLPUSH conserve, and refuse a key of another type. -/
theorem move_conserves {source destination : Bytes} {fromFront toFront : Bool}
    (hok : ∀ p l,(s.slots p).value=some (.list l) → l.Ok) :
    (∀ item,(moveGeneric source destination fromFront toFront ctx s).1=.bulk item →
      ∃ rest,ListMoved ctx.now (ctx.db,source) (ctx.db,destination) fromFront toFront item s.slots
        (moveGeneric source destination fromFront toFront ctx s).2.slots rest) ∧
    ((∃ key∈[source,destination],∃ data∈(s.slots (ctx.db,key)).live ctx.now,∀ l,data≠.list l) →
      Unchanged ctx.now s.slots
        (moveGeneric source destination fromFront toFront ctx s).2.slots) := by
  refine ⟨?_,?_⟩
  · intro item hdone
    obtain ⟨l,left,d,e,x,c,hlive,hpop,hx,hd,hc,he,hslots⟩ := moveGeneric_run hdone
    rw [hslots]
    exact ⟨_,listMoved_of_run hok hlive hpop hx hd hc he⟩
  · rintro ⟨key,hkey,data,hdata,hother⟩
    unfold moveGeneric
    simp only [bind_apply]
    have hfirst : Unchanged ctx.now s.slots (lookupTyped source Value.list ctx s).2.slots :=
      Cmd.Reads.lookupWrite ctx s
    cases hsrc : (lookupTyped source Value.list ctx s).1 with
    | missing => exact hfirst
    | wrongType => exact hfirst
    | found l =>
      have hlive := Lookup.of_list.mp ((lookupTyped_fst ..).symm.trans hsrc)
      have hstays := Slot.seen_eq_of_value (by rw [hlive]; exact Option.some_ne_none _)
      have hdst : (lookupTyped destination Value.list ctx
          (lookupTyped source Value.list ctx s).2).1=.wrongType := by
        rw [lookupTyped_fst,lookupTyped_slots,hstays,update_eq_self]
        rw [Slot.live_eq_seen] at hdata
        rcases mem_pair.mp hkey with rfl | rfl
        · rw [hlive] at hdata
          cases hdata
          exact absurd rfl (hother l)
        · rw [hdata]
          cases data with
          | list l => exact absurd rfl (hother l)
          | _ => rfl
      simp only [bind_apply]
      rw [hdst]
      exact hfirst.trans (@Cmd.Reads.lookupWrite destination ctx _)

theorem move_conserves_lone : ∃ rest,ListMoved 0 (0,ascii "k") (0,ascii "j") true false (ascii "a")
    (lone (.list (ListValue.empty.pushBack (ascii "a")))).slots
    (moveGeneric (ascii "k") (ascii "j") true false ⟨0,0,2⟩
      (lone (.list (ListValue.empty.pushBack (ascii "a"))))).2.slots rest := by
  refine (@move_conserves ⟨0,0,2⟩ _ (ascii "k") (ascii "j") true false fun p _ h => ?_).1
    (ascii "a") rfl
  cases lone_value p h
  exact (ListValue.empty_ok.pushBack (by decide)).1

end Commands

end Mnemos

/-! ## Copies of keys -/

open List Function

namespace Mnemos

open Cmd

namespace Commands

section Platform

variable [Platform] {ctx : Context} {s : Keyspace}

end Platform

section Reference

attribute [local instance] PlatformReference.platform

end Reference

end Commands

end Mnemos
