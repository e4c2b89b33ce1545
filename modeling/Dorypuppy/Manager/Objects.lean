import Dorypuppy.Manager.Step

/-!
# Manager — the native objects

What holds of the native objects in every state of the manager, whatever happens.  Each object is a
child some run of the class leads to (`Objects.reached`), so what the runs of one child say is
known of it.  A pid is in use by a child exactly while the child is watched (`Objects.holder`).  A
call that makes an object is the only one that works on it (`Calls`).
-/

namespace Dorypuppy.Manager

open Child (Reached born)
open Support (Machine History)
open Function (update update_self update_of_ne)

variable {s s' : State} {l : Label} {os : List Event}

/-! ### What a step does to the objects -/

/-- A step makes an object, sets the stage of one, does a step of one, or leaves them alone. -/
inductive ObjStep (s s' : State) : Prop where
  | same : s'.objs = s.objs → s'.next = s.next →
      (∀ q c, s'.os q = some (.child c) ↔ s.os q = some (.child c)) → ObjStep s s'
  | create {setup p} : setup.listeners = jniListeners →
      s'.objs = update s.objs s.next (some ⟨Child.start setup, p, .new⟩) →
      s'.next = s.next + 1 → s'.os = s.os → ObjStep s s'
  | stage {c sp st} : s.objs c = some sp →
      s'.objs = update s.objs c (some { sp with stage := st }) → s'.next = s.next →
      s'.os = s.os → ObjStep s s'
  | child {c sp i ch as} : s.objs c = some sp → Child.step sp.child i = some (ch, as) →
      (∀ pid, i.writesPid = some pid → s.os pid = none) →
      s'.objs = update s.objs c (some { sp with child := ch }) → s'.next = s.next →
      s'.os = pidsAfter s.os c sp.child.obj i → ObjStep s s'

theorem step_objs (hs : Step s l s' os) : ObjStep s s' := by
  cases hs with
  | create _ _ hset => exact .create (DoryProcess.setup_listeners hset) rfl rfl rfl
  | nativePut _ _ hc | javaPut _ _ hc => exact .stage hc rfl rfl rfl
  | spawn _ _ hc hst hfree => exact .child hc (Child.spawnStep_step hst) hfree rfl rfl rfl
  | callback _ hc hst | callbackInvoke _ hc hst =>
      exact .child hc (Child.callbackHead_step hst)
        (fun pid h => absurd h (Child.callbackHead_noPid hst pid)) rfl rfl rfl
  | @otherStarts pid hfree =>
      refine .same rfl rfl fun q c => ?_
      by_cases hq : q = pid
      · subst hq; simp [hfree]
      · simp [hq]
  | @otherEnds pid hother =>
      refine .same rfl rfl fun q c => ?_
      by_cases hq : q = pid
      · subst hq; simp [hother]
      · simp [hq]
  | _ => exact .same rfl rfl fun _ _ => Iff.rfl

/-- How an object has come to be what it is after a step: it was that before, it has just been
made, it was put in a map, or it did a step of `spawn()` or a callback. -/
inductive ObjChange (s : State) (c : ObjId) : Label → Spawn → Prop where
  | same {l sp} : s.objs c = some sp → (∀ i, l ≠ .callback c i) → ObjChange s c l sp
  | new {t mem now call setup} : s.calls t = some call → call.pc = .create → c = s.next →
      ObjChange s c (.step t mem now) ⟨Child.start setup, call.puppy, .new⟩
  | put {t mem now sp} (st : Stage) : s.objs c = some sp →
      ObjChange s c (.step t mem now) { sp with stage := st }
  | spawn {t i call sp ch as} : s.calls t = some call → call.pc = .spawning c →
      s.objs c = some sp → Child.spawnStep sp.child.obj sp.child.pc i = some (ch, as) →
      ObjChange s c (.spawn t i) { sp with child := ch }
  | callback {i sp ch as} : s.objs c = some sp → sp.child.callbackHead i = some (ch, as) →
      ObjChange s c (.callback c i) { sp with child := ch }

theorem obj_change (hs : Step s l s' os) {c : ObjId} {sp' : Spawn} (h : s'.objs c = some sp') :
    ObjChange s c l sp' := by
  have upd {c₁ : ObjId} {sp₁ : Spawn} (ho : s'.objs = update s.objs c₁ (some sp₁))
      (hch : c = c₁ → ObjChange s c l sp₁) (hl : ∀ i, l = .callback c i → c = c₁) :
      ObjChange s c l sp' := by
    rw [ho] at h
    by_cases hc : c = c₁
    · subst hc
      rw [update_self] at h
      cases h
      exact hch rfl
    · rw [update_of_ne hc] at h
      exact .same h fun i hi => hc (hl i hi)
  cases hs with
  | create hc hpc => exact upd rfl (fun hn => .new hc hpc hn) nofun
  | nativePut _ _ hsp | javaPut _ _ hsp => exact upd rfl (fun hc => .put _ (hc ▸ hsp)) nofun
  | spawn hcall hpc hsp hst =>
      exact upd rfl (fun hc => .spawn hcall (hc ▸ hpc) (hc ▸ hsp) hst) nofun
  | callback _ hsp hst | callbackInvoke _ hsp hst =>
      refine upd rfl ?_ fun i hi => ?_
      · rintro rfl
        exact .callback hsp hst
      · cases hi
        rfl
  | _ => exact .same h nofun

/-! ### The objects -/

/-- The objects made so far, and the pids their children have. -/
structure Objects (s : State) : Prop where
  fresh : ∀ c, s.next ≤ c → s.objs c = none
  reached : ∀ c sp, s.objs c = some sp →
    Reached sp.child ∧ sp.child.obj.listeners = jniListeners
  holder : ∀ q c, s.os q = some (.child c) ↔
    ∃ sp, s.objs c = some sp ∧ sp.child.obj.process.watched = true ∧
      sp.child.obj.process.pid = q

theorem Objects.lt (ok : Objects s) {c : ObjId} {sp : Spawn} (h : s.objs c = some sp) :
    c < s.next := by
  by_contra hlt
  rw [ok.fresh c (not_lt.mp hlt)] at h
  cases h

theorem init_objects (puppies : PuppyId → List (Option JString) × StringTable) :
    Objects (.init puppies) := by
  refine ⟨fun _ _ => rfl, fun _ _ h => ?_, fun _ _ => ?_⟩
  · cases h
  · simp [State.init]

/-- What a step of a child makes of a pid: it leaves it alone, or it is the pid of the child, from
`uv_spawn` to `exit_cb`. -/
theorem pidsAfter_cases (s : State) (c : ObjId) (o : DoryProcessSpawn JniCallback) (i : Input)
    (q : Int) : pidsAfter s.os c o i q = s.os q ∨
      (∃ pid : Pid, i = .uvSpawn (.ok pid) ∧ q = pid) ∨
      (i.exits = true ∧ q = o.process.pid ∧ pidsAfter s.os c o i q = none) := by
  unfold pidsAfter
  split
  · rename_i pid
    by_cases hq : q = pid
    · exact .inr (.inl ⟨pid, rfl, hq⟩)
    · exact .inl (update_of_ne hq _ _)
  · by_cases hq : q = o.process.pid
    · exact .inr (.inr ⟨rfl, hq, by rw [hq, update_self]⟩)
    · exact .inl (update_of_ne hq _ _)
  · exact .inl rfl

/-- A step of a child moves the pid table as it moves what the child watches. -/
theorem holder_child {c : ObjId} {sp : Spawn} {i : Input} {ch : Child JniCallback}
    {as : List (Act JniCallback)} (ok : Objects s) (hc : s.objs c = some sp)
    (hst : Child.step sp.child i = some (ch, as))
    (hfree : ∀ pid, i.writesPid = some pid → s.os pid = none) (q : Int) :
    pidsAfter s.os c sp.child.obj i q = some (.child c) ↔
      ch.obj.process.watched = true ∧ ch.obj.process.pid = q := by
  have hr := (ok.reached c sp hc).1
  have hwatched := Child.step_watched hst
  have hpid := Child.step_processPid hst
  have hold : s.os q = some (.child c) ↔
      sp.child.obj.process.watched = true ∧ sp.child.obj.process.pid = q := by
    rw [ok.holder]
    exact ⟨fun ⟨sp', h, hw⟩ => by cases hc.symm.trans h; exact hw, fun hw => ⟨sp, hc, hw⟩⟩
  by_cases hsp : i.spawns
  · obtain ⟨pid, rfl⟩ := Child.eq_of_spawns hsp
    simp only [pidsAfter, Input.writesPid, Option.getD_some] at hpid ⊢
    rw [hwatched, hpid, hsp, Bool.true_or]
    by_cases hq : q = pid
    · subst hq; simp
    · -- the child had no pid before
      have hun := hr.unborn (by rw [(Child.step_spawns hst hsp).1])
      rw [update_of_ne hq, hold, hr.watched_eq, hun]
      simp [Ne.symm hq]
  by_cases hx : i.exits
  · obtain ⟨e, g, rfl⟩ : ∃ e g, i = .exitCb e g := by
      cases i <;> first | exact ⟨_, _, rfl⟩ | cases hx
    rw [hwatched]
    simp only [pidsAfter, Input.spawns, Input.exits, Bool.not_true, Bool.and_false,
      Bool.or_false, Bool.false_eq_true, false_and, iff_false]
    by_cases hq : q = sp.child.obj.process.pid
    · subst hq; simp
    · rw [update_of_ne hq, hold]
      exact fun h => hq h.2.symm
  · have hos : pidsAfter s.os c sp.child.obj i = s.os := by
      cases i with
      | uvSpawn r => cases r <;> first | rfl | exact absurd rfl hsp
      | exitCb => exact absurd rfl hx
      | _ => rfl
    rw [hos, hold, hwatched, Bool.eq_false_iff.mpr hsp, Bool.eq_false_iff.mpr hx, Bool.false_or,
      Bool.not_false, Bool.and_true]
    refine and_congr_right fun hw => ?_
    rw [(hr.born_step hst (Child.born_of_watched hw)).2]

/-- The pid table at another child is left alone. -/
theorem holder_other {c c' : ObjId} {sp : Spawn} {i : Input} {ch : Child JniCallback}
    {as : List (Act JniCallback)} (ok : Objects s) (hc : s.objs c = some sp)
    (hst : Child.step sp.child i = some (ch, as))
    (hfree : ∀ pid, i.writesPid = some pid → s.os pid = none) (hne : c' ≠ c) (q : Int) :
    pidsAfter s.os c sp.child.obj i q = some (.child c') ↔ s.os q = some (.child c') := by
  unfold pidsAfter
  split
  · rename_i pid
    by_cases hq : q = pid
    · subst hq
      simp [hfree _ rfl, Ne.symm hne]
    · rw [update_of_ne hq]
  · by_cases hq : q = sp.child.obj.process.pid
    · subst hq
      have hw := Child.step_exits hst rfl
      have hos := (ok.holder _ c).mpr ⟨sp, hc, hw, rfl⟩
      simp [hos, Ne.symm hne]
    · rw [update_of_ne hq]
  · rfl

theorem step_objects (ok : Objects s) (hs : Step s l s' os) : Objects s' := by
  cases step_objs hs with
  | same ho hn hos =>
      exact ⟨by rw [ho, hn]; exact ok.fresh, by rw [ho]; exact ok.reached,
        fun q c => by rw [hos, ho]; exact ok.holder q c⟩
  | @create setup p hl ho hn hos =>
      refine ⟨fun c hc => ?_, fun c sp hc => ?_, fun q c => ?_⟩
      · rw [hn] at hc
        have hlt : s.next < c := hc
        rw [ho, update_of_ne hlt.ne']
        exact ok.fresh c hlt.le
      · rw [ho] at hc
        by_cases h : c = s.next
        · subst h
          rw [update_self] at hc
          cases hc
          exact ⟨Child.reached_start setup, hl⟩
        · rw [update_of_ne h] at hc
          exact ok.reached c sp hc
      · rw [ho, hos, ok.holder]
        by_cases h : c = s.next
        · subst h
          simp [ok.fresh _ le_rfl, Child.start, DoryProcessSpawn.new]
        · rw [update_of_ne h]
  | @stage c₀ sp₀ st hc₀ ho hn hos =>
      refine ⟨fun c hc => ?_, fun c sp hc => ?_, fun q c => ?_⟩
      · rw [ho, update_of_ne ((ok.lt hc₀).trans_le (hn ▸ hc)).ne']
        exact ok.fresh c (hn ▸ hc)
      · rw [ho] at hc
        by_cases h : c = c₀
        · subst h
          rw [update_self] at hc
          cases hc
          exact ok.reached c sp₀ hc₀
        · rw [update_of_ne h] at hc
          exact ok.reached c sp hc
      · rw [ho, hos, ok.holder]
        by_cases h : c = c₀
        · subst h; simp [hc₀]
        · rw [update_of_ne h]
  | @child c₀ sp₀ i ch as hc₀ hst hfree ho hn hos =>
      refine ⟨fun c hc => ?_, fun c sp hc => ?_, fun q c => ?_⟩
      · rw [ho, update_of_ne ((ok.lt hc₀).trans_le (hn ▸ hc)).ne']
        exact ok.fresh c (hn ▸ hc)
      · rw [ho] at hc
        by_cases h : c = c₀
        · subst h
          rw [update_self] at hc
          cases hc
          obtain ⟨hr, hl⟩ := ok.reached c sp₀ hc₀
          exact ⟨hr.step hst, (Child.step_const hst).2.2.trans hl⟩
        · rw [update_of_ne h] at hc
          exact ok.reached c sp hc
      · rw [ho, hos]
        by_cases h : c = c₀
        · subst h
          rw [holder_child ok hc₀ hst hfree, update_self]
          simp
        · rw [holder_other ok hc₀ hst hfree h, update_of_ne h]
          exact ok.holder q c

end Dorypuppy.Manager
