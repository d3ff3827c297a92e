import Mnemos.Database

/-!
# The database as a map with deadlines

A database that removes due entries when it meets them behaves as a map from
keys to a value and an optional deadline that never removes them but treats a
due entry as absent.
-/

namespace Mnemos.Database

open List

/-- The due keys drawn in each round of the cycle, repetitions included. -/
def dueRounds (now : ℤ) : ℕ → Dict ℤ → Draws → List (List Bytes)
  | 0,_,_ => []
  | iterations+1,expires,draws =>
    let remaining := expires.size
    if remaining=0 then []
    else
      let sampled := sample expires (min remaining kActiveExpireSampleSize) draws
      let doomed := doomedOf now sampled.1
      if sampled.1.length=0 || doomed.length*100/sampled.1.length ≤ kActiveExpireThresholdPercent
      then [doomed]
      else doomed::dueRounds now iterations (doomed.foldl (fun d key => (d.erase key).1) expires) sampled.2

theorem sample_mem {expires : Dict ℤ} {e : Dict.Entry ℤ} (n : ℕ) : ∀ {draws : Draws},
    e∈(sample expires n draws).1 → e∈expires.entries := by
  induction n with
  | zero =>
    intro draws h
    cases h
  | succ n ih =>
    intro draws h
    rw [sample] at h
    split at h
    · cases h
    · rename_i found rest hfound
      rcases mem_cons.mp h with rfl|h
      · exact Dict.randomEntry_mem (congrArg Prod.fst hfound)
      · exact ih h

theorem doomedOf_due {db : Database} {now : ℤ} {n : ℕ} {draws : Draws} {key : Bytes}
    (h : key∈doomedOf now (sample db.expires n draws).1) : db.Due key now := by
  obtain ⟨e,he,rfl⟩ := mem_map.mp h
  obtain ⟨hmem,hdue⟩ := mem_filter.mp he
  exact ⟨e.2,Dict.mem_entries.mp (sample_mem n hmem),of_decide_eq_true hdue⟩

theorem foldl_drop_dict (keys : List Bytes) : ∀ (db : Database) (k : Bytes),
    (keys.foldl drop db).dict.lookup k=if k∈keys then none else db.dict.lookup k := by
  induction keys with
  | nil =>
    intro db k
    rfl
  | cons key keys ih =>
    intro db k
    rw [foldl_cons,ih,drop,Dict.lookup_erase]
    by_cases hk : k=key <;> simp [hk]

theorem foldl_drop_expires (keys : List Bytes) : ∀ db : Database,
    (keys.foldl drop db).expires=keys.foldl (fun d key => (d.erase key).1) db.expires := by
  induction keys with
  | nil =>
    intro db
    rfl
  | cons key keys ih =>
    intro db
    rw [foldl_cons,ih]
    rfl

theorem lookup_foldl_erase {T : Type} (keys : List Bytes) : ∀ (d : Dict T) (k : Bytes),
    (keys.foldl (fun d key => (d.erase key).1) d).lookup k=if k∈keys then none else d.lookup k := by
  induction keys with
  | nil =>
    intro d k
    rfl
  | cons key keys ih =>
    intro d k
    rw [foldl_cons,ih,Dict.lookup_erase]
    by_cases hk : k=key <;> simp [hk]

structure Drew (db : Database) (now : ℤ) (rounds : List (List Bytes)) (out : Outcome ℕ) :
    Prop where
  result : out.result=rounds.flatten.length
  calls : out.calls=rounds.flatten.map .expired
  due : ∀ key∈rounds.flatten,db.Due key now
  dict : ∀ key,out.db.dict.lookup key=if key∈rounds.flatten then none else db.dict.lookup key
  expires : ∀ key,
    out.db.expires.lookup key=if key∈rounds.flatten then none else db.expires.lookup key
  disjoint : rounds.Pairwise List.Disjoint

theorem Drew.nothing (db : Database) (now : ℤ) : Drew db now [] ⟨0,db,[]⟩ where
  result := rfl
  calls := rfl
  due _ h := absurd h not_mem_nil
  dict _ := rfl
  expires _ := rfl
  disjoint := .nil

section Round

variable {db : Database} {now : ℤ} {doomed : List Bytes} {rounds : List (List Bytes)}
  {out : Outcome ℕ}

theorem Drew.last (hdue : ∀ key∈doomed,db.Due key now) :
    Drew db now [doomed] ⟨doomed.length,doomed.foldl drop db,doomed.map .expired⟩ where
  result := by rw [flatten_singleton]
  calls := by rw [flatten_singleton]
  due key h := hdue key (by rwa [flatten_singleton] at h)
  dict key := by rw [flatten_singleton,foldl_drop_dict]
  expires key := by
    rw [flatten_singleton,foldl_drop_expires]
    exact lookup_foldl_erase doomed db.expires key
  disjoint := pairwise_singleton _ _

theorem due_after_drop {key : Bytes} (h : (doomed.foldl drop db).Due key now) :
    db.Due key now ∧ key∉doomed := by
  obtain ⟨t,ht,hle⟩ := h
  rw [foldl_drop_expires,lookup_foldl_erase] at ht
  by_cases hk : key∈doomed
  · rw [if_pos hk] at ht
    cases ht
  · rw [if_neg hk] at ht
    exact ⟨⟨t,ht,hle⟩,hk⟩

theorem Drew.cons (hdue : ∀ key∈doomed,db.Due key now)
    (h : Drew (doomed.foldl drop db) now rounds out) :
    Drew db now (doomed::rounds)
      ⟨doomed.length+out.result,out.db,doomed.map .expired++out.calls⟩ where
  result := by rw [h.result,flatten_cons,length_append]
  calls := by rw [h.calls,flatten_cons,map_append]
  due key hkey := by
    rw [flatten_cons,mem_append] at hkey
    rcases hkey with hkey|hkey
    · exact hdue key hkey
    · exact (due_after_drop (h.due key hkey)).1
  dict key := by
    rw [h.dict,foldl_drop_dict,flatten_cons]
    by_cases hk : key∈doomed <;> simp [hk]
  expires key := by
    rw [h.expires,foldl_drop_expires,lookup_foldl_erase,flatten_cons]
    by_cases hk : key∈doomed <;> simp [hk]
  disjoint := by
    refine pairwise_cons.mpr ⟨fun round hround key hd hr => ?_,h.disjoint⟩
    exact (due_after_drop (h.due key (mem_flatten.mpr ⟨round,hround,hr⟩))).2 hd

end Round

theorem expireRounds_drew (now : ℤ) (iterations : ℕ) : ∀ (db : Database) (draws : Draws),
    Drew db now (dueRounds now iterations db.expires draws)
      (expireRounds now iterations db draws).1 := by
  induction iterations with
  | zero =>
    intro db draws
    exact .nothing db now
  | succ iterations ih =>
    intro db draws
    rw [dueRounds,expireRounds]
    dsimp only
    by_cases hempty : db.expires.size=0
    · rw [if_pos hempty,if_pos hempty]
      exact .nothing db now
    rw [if_neg hempty,if_neg hempty]
    set sampled := sample db.expires (min db.expires.size kActiveExpireSampleSize) draws with hs
    have hdue : ∀ key∈doomedOf now sampled.1,db.Due key now := fun key hkey =>
      doomedOf_due (hs ▸ hkey)
    split
    · exact .last hdue
    · have hrest := ih ((doomedOf now sampled.1).foldl drop db) sampled.2
      rw [foldl_drop_expires] at hrest
      exact .cons hdue hrest

theorem activeExpireCycle_drew (db : Database) (now : ℤ) (draws : Draws) :
    Drew db now (dueRounds now kActiveExpireMaxIterations db.expires draws)
      (db.activeExpireCycle now draws).1 := by
  rw [activeExpireCycle]
  split
  · rename_i hempty
    rw [kActiveExpireMaxIterations,dueRounds]
    dsimp only
    rw [if_pos hempty]
    exact .nothing db now
  · exact expireRounds_drew now kActiveExpireMaxIterations db draws

/-- The keys whose deadline is in the first database and not in the second. -/
def removedKeys (before after : Database) : List Bytes :=
  (before.expires.entries.map Sigma.fst).filter fun key => (after.expires.lookup key).isNone

structure Accounted (db : Database) (now : ℤ) (out : Outcome ℕ) : Prop where
  due : ∀ key∈removedKeys db out.db,db.Due key now
  both : ∀ key∈removedKeys db out.db,
    out.db.dict.lookup key=none ∧ out.db.expires.lookup key=none
  others : ∀ key∉removedKeys db out.db,
    out.db.dict.lookup key=db.dict.lookup key ∧ out.db.expires.lookup key=db.expires.lookup key
  once : out.calls ~ (removedKeys db out.db).map .expired
  counted : out.result=(removedKeys db out.db).length

section Drawn

variable {db : Database} {now : ℤ} {rounds : List (List Bytes)} {out : Outcome ℕ}

theorem Drew.mem_removedKeys (h : Drew db now rounds out) {key : Bytes} :
    key∈removedKeys db out.db ↔ key∈rounds.flatten := by
  rw [removedKeys,mem_filter,h.expires,Option.isNone_iff_eq_none]
  constructor
  · rintro ⟨hmem,hnone⟩
    by_contra hkey
    rw [if_neg hkey] at hnone
    obtain ⟨e,he,rfl⟩ := mem_map.mp hmem
    have hsome : db.expires.lookup e.1=some e.2 := Dict.mem_entries.mp he
    rw [hsome] at hnone
    cases hnone
  · intro hkey
    obtain ⟨t,ht,-⟩ := h.due key hkey
    exact ⟨mem_map.mpr ⟨⟨key,t⟩,Dict.mem_entries.mpr ht,rfl⟩,if_pos hkey⟩

theorem removedKeys_nodup (before after : Database) : (removedKeys before after).Nodup :=
  Nodup.filter _ before.expires.entries_nodupKeys

theorem Drew.accounted_iff (h : Drew db now rounds out) :
    Accounted db now out ↔ ∀ round∈rounds,round.Nodup := by
  constructor
  · intro ha
    have hnodup : (rounds.flatten.map Callback.expired).Nodup := by
      rw [←h.calls]
      refine ha.once.symm.nodup ((removedKeys_nodup db out.db).map ?_)
      exact fun a b hab => Callback.expired.inj hab
    exact (nodup_flatten.mp (Nodup.of_map _ hnodup)).1
  · intro hrounds
    have hnodup : rounds.flatten.Nodup := nodup_flatten.mpr ⟨hrounds,h.disjoint⟩
    have hperm : rounds.flatten ~ removedKeys db out.db :=
      (perm_ext_iff_of_nodup hnodup (removedKeys_nodup db out.db)).mpr fun key =>
        h.mem_removedKeys.symm
    exact {
      due := fun key hkey => h.due key (h.mem_removedKeys.mp hkey)
      both := fun key hkey => by
        rw [h.dict,h.expires,if_pos (h.mem_removedKeys.mp hkey),if_pos (h.mem_removedKeys.mp hkey)]
        exact ⟨rfl,rfl⟩
      others := fun key hkey => by
        have hdrawn := fun hd => hkey (h.mem_removedKeys.mpr hd)
        rw [h.dict,h.expires,if_neg hdrawn,if_neg hdrawn]
        exact ⟨rfl,rfl⟩
      once := by
        rw [h.calls]
        exact hperm.map _
      counted := by rw [h.result,hperm.length_eq] }

end Drawn

/-- **The cycle keeps its books exactly if no round draws a due key twice.** Whatever the
draws are, only due keys leave the tables, and they leave both. -/
theorem activeExpireCycle_accounted_iff (db : Database) (now : ℤ) (draws : Draws) :
    (Accounted db now (db.activeExpireCycle now draws).1 ↔
      ∀ round∈dueRounds now kActiveExpireMaxIterations db.expires draws,round.Nodup) ∧
    ∀ key,
      ((db.activeExpireCycle now draws).1.db.dict.lookup key=db.dict.lookup key ∧
        (db.activeExpireCycle now draws).1.db.expires.lookup key=db.expires.lookup key) ∨
      (db.Due key now ∧ (db.activeExpireCycle now draws).1.db.dict.lookup key=none ∧
        (db.activeExpireCycle now draws).1.db.expires.lookup key=none) := by
  have h := activeExpireCycle_drew db now draws
  refine ⟨h.accounted_iff,fun key => ?_⟩
  rw [h.dict,h.expires]
  by_cases hkey : key∈(dueRounds now kActiveExpireMaxIterations db.expires draws).flatten
  · rw [if_pos hkey,if_pos hkey]
    exact .inr ⟨h.due key hkey,rfl,rfl⟩
  · rw [if_neg hkey,if_neg hkey]
    exact .inl ⟨rfl,rfl⟩

def twoDeadlines : Database :=
  (((init.setKey [97] (.makeString [1])).db.setKey [98] (.makeString [2])).db.setExpireAt [97]
    1).setExpireAt [98] 2

/-- Both draws of the first round hit one key: three callbacks and a count of three for two keys. -/
theorem activeExpireCycle_repeated :
    let out := (twoDeadlines.activeExpireCycle 5 (Stream'.const 0)).1
    (removedKeys twoDeadlines out.db).length=2 ∧ out.result=3 ∧
      ¬Accounted twoDeadlines 5 out := by
  have hcount : (removedKeys twoDeadlines (twoDeadlines.activeExpireCycle 5 (Stream'.const 0)).1.db).length=2 ∧
      (twoDeadlines.activeExpireCycle 5 (Stream'.const 0)).1.result=3 := by decide +kernel
  refine ⟨hcount.1,hcount.2,fun h => ?_⟩
  have := h.counted
  rw [hcount.1,hcount.2] at this
  cases this

/-! ## The database as a map with deadlines -/

inductive Op where
  | setKey (key : Bytes) (value : Value)
  | overwriteValue (key : Bytes) (value : Value)
  | erase (key : Bytes)
  | setExpireAt (key : Bytes) (at_ : ℤ)
  | persist (key : Bytes)
  | flush
  | lookupRead (key : Bytes)
  | exists_ (key : Bytes)
  | ttlMs (key : Bytes)

/-- What a call returns. The results of the writing calls are not observed. -/
inductive Answer where
  | done
  | value (found : Option Value)
  | present (found : Bool)
  | remaining (ms : ℤ)

def Op.run (now : ℤ) (db : Database) : Op → Answer×Database
  | .setKey key value => (.done,(db.setKey key value).db)
  | .overwriteValue key value => (.done,(db.overwriteValue key value).db)
  | .erase key => (.done,(db.erase key).2)
  | .setExpireAt key at_ => (.done,db.setExpireAt key at_)
  | .persist key => (.done,(db.persist key).2)
  | .flush => (.done,db.flush)
  | .lookupRead key => (.value (db.lookupRead key now).result,(db.lookupRead key now).db)
  | .exists_ key => (.present (db.exists_ key now).result,(db.exists_ key now).db)
  | .ttlMs key => (.remaining (db.ttlMs key now).result,(db.ttlMs key now).db)

inductive Step where
  | call (now : ℤ) (op : Op)
  | cycle (now : ℤ) (draws : Draws)

def Step.now : Step → ℤ
  | .call now _ => now
  | .cycle now _ => now

def answers : List Step → Database → List Answer
  | [],_ => []
  | .call now op::steps,db => (op.run now db).1::answers steps (op.run now db).2
  | .cycle now draws::steps,db => answers steps (db.activeExpireCycle now draws).1.db

def callsOf : List Step → List (ℤ×Op)
  | [] => []
  | .call now op::steps => (now,op)::callsOf steps
  | .cycle _ _::steps => callsOf steps

abbrev DeadlineMap := Bytes → Option (Value×Option ℤ)

def unexpired (now : ℤ) : Value×Option ℤ → Bool
  | (_,none) => true
  | (_,some t) => decide (now < t)

/-- The binding of a key; an entry with a deadline that has passed counts as absent. -/
def DeadlineMap.visible (m : DeadlineMap) (key : Bytes) (now : ℤ) : Option (Value×Option ℤ) :=
  (m key).filter (unexpired now)

def remainingOf (now : ℤ) : Option (Value×Option ℤ) → ℤ
  | none => -2
  | some (_,none) => -1
  | some (_,some t) => t-now

def Op.apply (now : ℤ) (m : DeadlineMap) : Op → Answer×DeadlineMap
  | .setKey key value => (.done,Function.update m key (some (value,none)))
  | .overwriteValue key value =>
    (.done,Function.update m key (some (value,(m.visible key now).bind Prod.snd)))
  | .erase key => (.done,Function.update m key none)
  | .setExpireAt key at_ =>
    (.done,Function.update m key ((m.visible key now).map fun r => (r.1,some at_)))
  | .persist key => (.done,Function.update m key ((m.visible key now).map fun r => (r.1,none)))
  | .flush => (.done,fun _ => none)
  | .lookupRead key => (.value ((m.visible key now).map fun r => r.1.touch now),m)
  | .exists_ key => (.present (m.visible key now).isSome,m)
  | .ttlMs key => (.remaining (remainingOf now (m.visible key now)),m)

def applyAll : List (ℤ×Op) → DeadlineMap → List Answer
  | [],_ => []
  | (now,op)::calls,m => (op.apply now m).1::applyAll calls (op.apply now m).2

/-- What the callers of the three operations that do not look at the deadline make sure of
with a lookup: the key is not due, and a key that gets a deadline is there. -/
def Op.Ready (now : ℤ) (db : Database) : Op → Prop
  | .overwriteValue key _ => ¬db.Due key now
  | .setExpireAt key _ => ¬db.Due key now ∧ (db.dict.lookup key).isSome
  | .persist key => ¬db.Due key now
  | _ => True

def Ready : List (ℤ×Op) → Database → Prop
  | [],_ => True
  | (now,op)::calls,db => op.Ready now db ∧ Ready calls (op.run now db).2

/-- The tables hold a binding, up to the time of the last access. -/
def Holds (db : Database) (key : Bytes) (r : Value×Option ℤ) : Prop :=
  (∃ w,db.dict.lookup key=some w ∧ ∀ t,w.touch t=r.1.touch t) ∧ db.expires.lookup key=r.2

def Hides (db : Database) (key : Bytes) (now : ℤ) : Prop :=
  db.Due key now ∨ db.dict.lookup key=none ∧ db.expires.lookup key=none

def ShowsAt (db : Database) (key : Bytes) (now : ℤ) : Option (Value×Option ℤ) → Prop
  | some r => Holds db key r
  | none => Hides db key now

def Shows (db : Database) (now : ℤ) (m : DeadlineMap) : Prop :=
  ∀ key,ShowsAt db key now (m.visible key now)

section Relation

variable {db db₀ : Database} {now later : ℤ} {m : DeadlineMap} {key : Bytes}

variable {r : Value×Option ℤ} {db' : Database}

theorem DeadlineMap.visible_unexpired (h : m.visible key now=some r) :
    unexpired now r=true :=
  (Option.filter_eq_some_iff.mp h).2

theorem unexpired_earlier (hle : now ≤ later) (h : unexpired later r=true) :
    unexpired now r=true := by
  obtain ⟨v,deadline⟩ := r
  cases deadline with
  | none => rfl
  | some t => exact decide_eq_true (lt_of_le_of_lt hle (of_decide_eq_true h))

theorem DeadlineMap.visible_later (hle : now ≤ later) :
    m.visible key later=(m.visible key now).filter (unexpired later) := by
  rw [visible,visible,Option.filter_filter]
  congr 1
  funext r
  by_cases h : unexpired later r=true
  · rw [h,unexpired_earlier hle h]
    rfl
  · rw [Bool.not_eq_true] at h
    rw [h,Bool.and_false]

theorem Holds.not_due (h : Holds db key r) (hr : unexpired now r=true) :
    ¬db.Due key now := by
  rintro ⟨t,ht,hle⟩
  obtain ⟨v,deadline⟩ := r
  rw [h.2] at ht
  subst ht
  exact absurd (of_decide_eq_true hr) (not_lt.mpr hle)

theorem Holds.hides (h : Holds db key r) (hr : ¬unexpired later r=true) :
    Hides db key later := by
  obtain ⟨v,deadline⟩ := r
  cases deadline with
  | none => exact absurd rfl hr
  | some t => exact .inl ⟨t,h.2,not_lt.mp fun hlt => hr (decide_eq_true hlt)⟩

theorem Shows.holds (h : Shows db now m) (hv : m.visible key now=some r) :
    Holds db key r := by
  have := h key
  rwa [hv] at this

theorem Shows.hides (h : Shows db now m) (hv : m.visible key now=none) : Hides db key now := by
  have := h key
  rwa [hv] at this

theorem Shows.visible_due (h : Shows db now m) (hdue : db.Due key now) :
    m.visible key now=none := by
  cases hv : m.visible key now with
  | none => rfl
  | some r => exact absurd hdue ((h.holds hv).not_due (m.visible_unexpired hv))

theorem Shows.absent (h : Shows db now m) (hdue : ¬db.Due key now)
    (hv : m.visible key now=none) : db.dict.lookup key=none ∧ db.expires.lookup key=none :=
  (h.hides hv).resolve_left hdue

theorem Shows.mono (h : Shows db now m) (hle : now ≤ later) : Shows db later m := by
  intro key
  rw [DeadlineMap.visible_later hle]
  cases hv : m.visible key now with
  | none => exact (h.hides hv).imp (·.mono hle) id
  | some r =>
    by_cases hr : unexpired later r=true
    · rw [Option.filter_some,if_pos hr]
      exact h.holds hv
    · rw [Option.filter_some,if_neg hr]
      exact (h.holds hv).hides hr

theorem Shows.live (h : Shows db now m) :
    (db.live key now).map (Value.touch · now)=(m.visible key now).map fun r => r.1.touch now := by
  rw [Database.live]
  by_cases hdue : db.Due key now
  · rw [if_pos hdue,h.visible_due hdue]
    rfl
  · rw [if_neg hdue]
    cases hv : m.visible key now with
    | none =>
      rw [(h.absent hdue hv).1]
      rfl
    | some r =>
      obtain ⟨w,hw,htouch⟩ := (h.holds hv).1
      rw [hw]
      exact congrArg some (htouch now)

theorem ShowsAt.congr {b : Option (Value×Option ℤ)} (h : ShowsAt db key now b)
    (hd : db'.dict.lookup key=db.dict.lookup key)
    (he : db'.expires.lookup key=db.expires.lookup key) : ShowsAt db' key now b := by
  cases b with
  | none => exact h.imp (due_congr he).mpr fun ⟨h₁,h₂⟩ => ⟨hd.trans h₁,he.trans h₂⟩
  | some r =>
    obtain ⟨⟨w,hw,htouch⟩,hdeadline⟩ := h
    exact ⟨⟨w,hd.trans hw,htouch⟩,he.trans hdeadline⟩

theorem Shows.update {b : Option (Value×Option ℤ)} (h : Shows db now m)
    (hd : ∀ k≠key,db'.dict.lookup k=db.dict.lookup k)
    (he : ∀ k≠key,db'.expires.lookup k=db.expires.lookup k)
    (hkey : ShowsAt db' key now (b.filter (unexpired now))) :
    Shows db' now (Function.update m key b) := by
  intro k
  by_cases hk : k=key
  · subst hk
    rw [DeadlineMap.visible,Function.update_self]
    exact hkey
  · rw [DeadlineMap.visible,Function.update_of_ne hk,←DeadlineMap.visible]
    exact (h k).congr (hd k hk) (he k hk)

theorem Holds.showsAt (h : Holds db key r) :
    ShowsAt db key now (Option.filter (unexpired now) (some r)) := by
  by_cases hr : unexpired now r=true
  · rw [Option.filter_some,if_pos hr]
    exact h
  · rw [Option.filter_some,if_neg hr]
    exact h.hides hr

theorem showsAt_write {v : Value} {deadline : Option ℤ} (hd : db.dict.lookup key=some v)
    (he : db.expires.lookup key=deadline) :
    ShowsAt db key now (Option.filter (unexpired now) (some (v,deadline))) :=
  Holds.showsAt ⟨⟨v,hd,fun _ => rfl⟩,he⟩

theorem Shows.lookupRead (h : Shows db now m) : Shows (db.lookupRead key now).db now m := by
  intro k
  by_cases hk : k=key
  · subst hk
    cases hv : m.visible k now with
    | none =>
      right
      rw [lookupRead_dict,if_pos rfl,h.live,hv,lookupRead_expires]
      refine ⟨rfl,?_⟩
      by_cases hdue : db.Due k now
      · rw [if_pos ⟨rfl,hdue⟩]
      · rw [if_neg fun hc => hdue hc.2]
        exact (h.absent hdue hv).2
    | some r =>
      have hholds := h.holds hv
      have hdue := hholds.not_due (m.visible_unexpired hv)
      refine ⟨⟨r.1.touch now,?_,fun _ => rfl⟩,?_⟩
      · rw [lookupRead_dict,if_pos rfl,h.live,hv]
        rfl
      · rw [lookupRead_expires,if_neg fun hc => hdue hc.2]
        exact hholds.2
  · have hd : (db.lookupRead key now).db.dict.lookup k=db.dict.lookup k := by
      rw [lookupRead_dict,if_neg hk]
    have he : (db.lookupRead key now).db.expires.lookup k=db.expires.lookup k := by
      rw [lookupRead_expires,if_neg fun hc => hk hc.1]
    exact (h k).congr hd he

theorem Shows.activeExpireCycle (h : Shows db now m) (draws : Draws) :
    Shows (db.activeExpireCycle now draws).1.db now m := by
  have hdrew := activeExpireCycle_drew db now draws
  intro k
  by_cases hk : k∈(dueRounds now kActiveExpireMaxIterations db.expires draws).flatten
  · rw [h.visible_due (hdrew.due k hk)]
    exact .inr ⟨(hdrew.dict k).trans (if_pos hk),(hdrew.expires k).trans (if_pos hk)⟩
  · have hd := (hdrew.dict k).trans (if_neg hk)
    have he := (hdrew.expires k).trans (if_neg hk)
    exact (h k).congr hd he

theorem hides_of_visible (hd : db'.dict.lookup key=none) (he : db'.expires.lookup key=none) :
    ShowsAt db' key now (Option.filter (unexpired now) none) :=
  .inr ⟨hd,he⟩

theorem Shows.ttlMs (h : Shows db now m) (hnow : 0 ≤ now) :
    (db.ttlMs key now).result=remainingOf now (m.visible key now) := by
  have hfound := (lookupRead_result db key now).trans h.live
  rw [Database.ttlMs]
  cases hv : m.visible key now with
  | none =>
    rw [hv] at hfound
    rw [hfound]
    rfl
  | some r =>
    rw [hv] at hfound
    have hdue := (h.holds hv).not_due (m.visible_unexpired hv)
    have hdeadline : (db.lookupRead key now).db.expires.lookup key=r.2 := by
      rw [lookupRead_expires,if_neg fun hc => hdue hc.2]
      exact (h.holds hv).2
    rw [hfound]
    dsimp only [Option.map_some]
    rw [expireAtMs_fst,hdeadline]
    obtain ⟨v,deadline⟩ := r
    cases deadline with
    | none => rfl
    | some t =>
      have hlt : now < t := of_decide_eq_true (m.visible_unexpired hv)
      dsimp only [Option.getD_some,remainingOf]
      rw [if_neg (by omega)]
      exact if_neg (by omega)

theorem ttlMs_tables (db : Database) (key k : Bytes) (now : ℤ) :
    (db.ttlMs key now).db.dict.lookup k=(db.lookupRead key now).db.dict.lookup k ∧
    (db.ttlMs key now).db.expires.lookup k=(db.lookupRead key now).db.expires.lookup k := by
  rw [Database.ttlMs]
  split
  · exact ⟨rfl,rfl⟩
  · dsimp only
    split
    · exact ⟨rfl,expireAtMs_expires _ key k⟩
    · exact ⟨rfl,expireAtMs_expires _ key k⟩

/-- **One call**: ready calls answer as on the map and keep the relation. -/
theorem Shows.run (h : Shows db now m) (hnow : 0 ≤ now) (op : Op) (hready : op.Ready now db) :
    (op.run now db).1=(op.apply now m).1 ∧ Shows (op.run now db).2 now (op.apply now m).2 := by
  cases op with
  | setKey key value =>
    refine ⟨rfl,h.update (fun k hk => ?_) (fun k hk => ?_) (showsAt_write ?_ ?_)⟩
    · exact (Dict.lookup_insert db.dict key value k).trans (if_neg hk)
    · exact (Dict.lookup_erase db.expires key k).trans (if_neg hk)
    · exact (Dict.lookup_insert db.dict key value key).trans (if_pos rfl)
    · exact (Dict.lookup_erase db.expires key key).trans (if_pos rfl)
  | overwriteValue key value =>
    refine ⟨rfl,h.update (fun k hk => ?_) (fun _ _ => rfl) (showsAt_write ?_ ?_)⟩
    · exact (Dict.lookup_insert db.dict key value k).trans (if_neg hk)
    · exact (Dict.lookup_insert db.dict key value key).trans (if_pos rfl)
    · change db.expires.lookup key=_
      cases hv : m.visible key now with
      | none => exact (h.absent hready hv).2
      | some r => exact (h.holds hv).2
  | erase key =>
    refine ⟨rfl,h.update (fun k hk => ?_) (fun k hk => ?_) (hides_of_visible ?_ ?_)⟩
    · exact (Dict.lookup_erase db.dict key k).trans (if_neg hk)
    · exact (Dict.lookup_erase db.expires key k).trans (if_neg hk)
    · exact (Dict.lookup_erase db.dict key key).trans (if_pos rfl)
    · exact (Dict.lookup_erase db.expires key key).trans (if_pos rfl)
  | setExpireAt key at_ =>
    obtain ⟨hdue,hsome⟩ := hready
    have he : ∀ k,(db.setExpireAt key at_).expires.lookup k=
        if k=key then some at_ else db.expires.lookup k :=
      Dict.lookup_insert db.expires key at_
    cases hv : m.visible key now with
    | none =>
      rw [(h.absent hdue hv).1] at hsome
      cases hsome
    | some r =>
      refine ⟨rfl,?_⟩
      rw [Op.apply,hv]
      refine h.update (fun _ _ => rfl) (fun k hk => (he k).trans (if_neg hk)) ?_
      obtain ⟨w,hw,htouch⟩ := (h.holds hv).1
      have hholds : Holds (db.setExpireAt key at_) key (r.1,some at_) :=
        ⟨⟨w,hw,htouch⟩,(he key).trans (if_pos rfl)⟩
      exact hholds.showsAt
  | persist key =>
    have he : ∀ k,(db.persist key).2.expires.lookup k=
        if k=key then none else db.expires.lookup k :=
      Dict.lookup_erase db.expires key
    refine ⟨rfl,h.update (fun _ _ => rfl) (fun k hk => (he k).trans (if_neg hk)) ?_⟩
    cases hv : m.visible key now with
    | none => exact hides_of_visible (h.absent hready hv).1 ((he key).trans (if_pos rfl))
    | some r =>
      obtain ⟨w,hw,htouch⟩ := (h.holds hv).1
      have hholds : Holds (db.persist key).2 key (r.1,none) :=
        ⟨⟨w,hw,htouch⟩,(he key).trans (if_pos rfl)⟩
      exact hholds.showsAt
  | flush => exact ⟨rfl,fun key => .inr ⟨Dict.lookup_init key,Dict.lookup_init key⟩⟩
  | lookupRead key =>
    exact ⟨congrArg Answer.value ((lookupRead_result db key now).trans h.live),h.lookupRead⟩
  | exists_ key =>
    refine ⟨congrArg Answer.present ?_,?_⟩
    · have hlive : (db.live key now).map _=_ := h.live
      have hfound := congrArg Option.isSome hlive
      rw [Option.isSome_map,Option.isSome_map] at hfound
      rw [exists_eq]
      exact hfound
    · rw [Op.run,exists_eq]
      exact h.lookupRead
  | ttlMs key =>
    refine ⟨congrArg Answer.remaining (h.ttlMs hnow),fun k => ?_⟩
    have hsame := ttlMs_tables db key k now
    exact (h.lookupRead k).congr hsame.1 hsame.2

theorem due_erased (he : ∀ k,db'.expires.lookup k= if k=key then none else db.expires.lookup k)
    (k : Bytes) :
    db'.Due k now ↔ k≠key ∧ db.Due k now := by
  rw [Due,Due,he]
  by_cases hk : k=key <;> simp [hk]

theorem due_looked
    (he : ∀ k,db'.expires.lookup k= if k=key ∧ db.Due key now then none else db.expires.lookup k)
    (k : Bytes) :
    db'.Due k now ↔ k≠key ∧ db.Due k now := by
  by_cases hd : db.Due key now
  · refine due_erased (fun k => ?_) k
    rw [he]
    simp only [hd,and_true]
  · have hsame : db'.Due k now ↔ db.Due k now := due_congr (by rw [he,if_neg fun hc => hd hc.2])
    rw [hsame]
    exact ⟨fun h => ⟨fun hk => hd (hk ▸ h),h⟩,And.right⟩

def DueIn (db db₀ : Database) (now : ℤ) : Prop := ∀ key,db.Due key now → db₀.Due key now

theorem DueIn.without {db' db₀' : Database} (hdue : DueIn db db₀ now)
    (h : ∀ k,db'.Due k now ↔ k≠key ∧ db.Due k now)
    (h₀ : ∀ k,db₀'.Due k now ↔ k≠key ∧ db₀.Due k now) : DueIn db' db₀' now :=
  fun k hk => (h₀ k).mpr (((h k).mp hk).imp id (hdue k))

theorem DueIn.run (hdue : DueIn db db₀ now) (op : Op) :
    DueIn (op.run now db).2 (op.run now db₀).2 now := by
  cases op with
  | setKey key value | erase key | persist key =>
    exact hdue.without (due_erased (Dict.lookup_erase db.expires key))
      (due_erased (Dict.lookup_erase db₀.expires key))
  | overwriteValue key value => exact hdue
  | setExpireAt key at_ =>
    intro k h
    have he : ∀ d : Database,(d.setExpireAt key at_).expires.lookup k=
        if k=key then some at_ else d.expires.lookup k :=
      fun d => Dict.lookup_insert d.expires key at_ k
    rw [Op.run,Due,he] at h ⊢
    by_cases hk : k=key
    · rwa [if_pos hk] at h ⊢
    · rw [if_neg hk] at h ⊢
      exact hdue k h
  | flush => exact fun _ => id
  | lookupRead key =>
    exact hdue.without (due_looked fun k => lookupRead_expires db key k now)
      (due_looked fun k => lookupRead_expires db₀ key k now)
  | exists_ key =>
    rw [Op.run,Op.run,exists_eq,exists_eq]
    exact hdue.without (due_looked fun k => lookupRead_expires db key k now)
      (due_looked fun k => lookupRead_expires db₀ key k now)
  | ttlMs key =>
    have he : ∀ (d : Database) (k : Bytes),(d.ttlMs key now).db.expires.lookup k=
        if k=key ∧ d.Due key now then none else d.expires.lookup k :=
      fun d k => (ttlMs_tables d key k now).2.trans (lookupRead_expires d key k now)
    exact hdue.without (due_looked (he db)) (due_looked (he db₀))

/-- Two databases for one map, the first with some due entries already removed. -/
structure Behind (db db₀ : Database) (now : ℤ) (m : DeadlineMap) : Prop where
  shows₁ : Shows db now m
  shows₀ : Shows db₀ now m
  due : DueIn db db₀ now

theorem Behind.mono (h : Behind db db₀ now m) (hle : now ≤ later) : Behind db db₀ later m where
  shows₁ := h.shows₁.mono hle
  shows₀ := h.shows₀.mono hle
  due key hdue := by
    cases hv : m.visible key now with
    | some r => exact (due_congr ((h.shows₁.holds hv).2.trans (h.shows₀.holds hv).2.symm)).mp hdue
    | none =>
      rcases h.shows₁.hides hv with hnow|⟨-,hnone⟩
      · exact (h.due key hnow).mono hle
      · have hsome := hdue.isSome
        rw [hnone] at hsome
        cases hsome

theorem Behind.ready (h : Behind db db₀ now m) {op : Op} (hready : op.Ready now db₀) :
    op.Ready now db := by
  have hnot : ∀ key,¬db₀.Due key now → ¬db.Due key now := fun key => mt (h.due key)
  cases op with
  | overwriteValue key value => exact hnot key hready
  | persist key => exact hnot key hready
  | setExpireAt key at_ =>
    refine ⟨hnot key hready.1,?_⟩
    cases hv : m.visible key now with
    | none =>
      have hsome := hready.2
      rw [(h.shows₀.absent hready.1 hv).1] at hsome
      cases hsome
    | some r =>
      obtain ⟨w,hw,-⟩ := (h.shows₁.holds hv).1
      rw [hw]
      rfl
  | setKey _ _ | erase _ | flush | lookupRead _ | exists_ _ | ttlMs _ => trivial

theorem Behind.cycle (h : Behind db db₀ now m) (draws : Draws) :
    Behind (db.activeExpireCycle now draws).1.db db₀ now m where
  shows₁ := h.shows₁.activeExpireCycle draws
  shows₀ := h.shows₀
  due key hdue := by
    refine h.due key ?_
    obtain ⟨t,ht,hle⟩ := hdue
    rw [(activeExpireCycle_drew db now draws).expires] at ht
    split at ht
    · cases ht
    · exact ⟨t,ht,hle⟩

/-- **Whole runs**: with cycles anywhere, the calls answer as on the map. -/
theorem Behind.answers {steps : List Step} : ∀ {db db₀ : Database} {now : ℤ} {m : DeadlineMap},
    Behind db db₀ now m → 0 ≤ now → (∀ s∈steps,now ≤ s.now) →
    steps.Pairwise (fun s s' => s.now ≤ s'.now) → Ready (callsOf steps) db₀ →
    Database.answers steps db=applyAll (callsOf steps) m := by
  induction steps with
  | nil =>
    intro db db₀ now m _ _ _ _ _
    rfl
  | cons s steps ih =>
    intro db db₀ now m h hnow hfirst hsorted hready
    obtain ⟨hnext,hrests⟩ := List.pairwise_cons.mp hsorted
    have hstep := hfirst s List.mem_cons_self
    have hthere := h.mono hstep
    cases s with
    | cycle later draws => exact ih (hthere.cycle draws) (hnow.trans hstep) hnext hrests hready
    | call later op =>
      obtain ⟨hop,hready⟩ := hready
      have h₁ := hthere.shows₁.run (hnow.trans hstep) op (hthere.ready hop)
      have h₀ := hthere.shows₀.run (hnow.trans hstep) op hop
      have hrest : Behind (op.run later db).2 (op.run later db₀).2 later (op.apply later m).2 :=
        ⟨h₁.2,h₀.2,hthere.due.run op⟩
      exact congrArg₂ List.cons h₁.1 (ih hrest (hnow.trans hstep) hnext hrests hready)

end Relation

/-- **The database is a map in which due entries count as absent, and sampling cycles cannot
be seen**, for calls at non-decreasing times of which `overwriteValue`, `setExpireAt` and
`persist` find the key not due. -/
theorem answers_of_ready (steps : List Step) (hnow : ∀ s∈steps,0 ≤ s.now)
    (hsorted : steps.Pairwise fun s s' => s.now ≤ s'.now) (hready : Ready (callsOf steps) init) :
    answers steps init=applyAll (callsOf steps) (fun _ => none) ∧
    ∀ steps' : List Step,callsOf steps'=callsOf steps → (∀ s∈steps',0 ≤ s.now) →
      (steps'.Pairwise fun s s' => s.now ≤ s'.now) → answers steps' init=answers steps init := by
  have hempty : Shows init 0 fun _ => none := fun key =>
    .inr ⟨Dict.lookup_init key,Dict.lookup_init key⟩
  have hstart : Behind init init 0 fun _ => none := ⟨hempty,hempty,fun _ => id⟩
  have hmain := hstart.answers le_rfl hnow hsorted hready
  refine ⟨hmain,fun steps' hcalls hnow' hsorted' => ?_⟩
  rw [hmain,←hcalls]
  exact hstart.answers le_rfl hnow' hsorted' (hcalls ▸ hready)

/-- A key with a deadline is looked up after it, with a cycle on the way, and written again. -/
def expiredThenWritten : List Step :=
  [.call 0 (.setKey [97] (.makeString [1])),.call 0 (.setExpireAt [97] 5),.cycle 7 (Stream'.const 0),
    .call 8 (.exists_ [97]),.call 8 (.overwriteValue [97] (.makeString [2])),.call 9 (.ttlMs [97])]

theorem answers_of_ready_expired :
    answers expiredThenWritten init=applyAll (callsOf expiredThenWritten) fun _ => none := by
  refine (answers_of_ready expiredThenWritten ?_ ?_ ⟨trivial,?_,trivial,?_,trivial,trivial⟩).1
  · decide
  · decide
  · change ¬_ ∧ _
    decide +kernel
  · change ¬_
    decide +kernel

def Answer.isPresent : Answer → Bool
  | .present found => found
  | _ => false

def writtenWhenDue : List Step :=
  [.call 0 (.setKey [97] (.makeString [1])),.call 0 (.setExpireAt [97] 5),
    .call 8 (.overwriteValue [97] (.makeString [2])),.call 8 (.exists_ [97])]

def writtenAfterCycle : List Step :=
  [.call 0 (.setKey [97] (.makeString [1])),.call 0 (.setExpireAt [97] 5),.cycle 8 (Stream'.const 0),
    .call 8 (.overwriteValue [97] (.makeString [2])),.call 8 (.exists_ [97])]

/-- The new value inherits the old deadline and is not seen, unless a cycle has removed it. -/
theorem answers_writtenWhenDue :
    callsOf writtenWhenDue=callsOf writtenAfterCycle ∧
    answers writtenWhenDue init≠answers writtenAfterCycle init ∧
    answers writtenWhenDue init≠applyAll (callsOf writtenWhenDue) fun _ => none := by
  have hdue : (answers writtenWhenDue init).map Answer.isPresent=[false,false,false,false] := by
    decide +kernel
  have hcycle : (answers writtenAfterCycle init).map Answer.isPresent=
      [false,false,false,true] := by decide +kernel
  have hmap : (applyAll (callsOf writtenWhenDue) fun _ => none).map Answer.isPresent=
      [false,false,false,true] := by decide +kernel
  refine ⟨rfl,fun h => ?_,fun h => ?_⟩
  · rw [h,hcycle] at hdue
    cases hdue
  · rw [h,hmap] at hdue
    cases hdue

end Mnemos.Database
