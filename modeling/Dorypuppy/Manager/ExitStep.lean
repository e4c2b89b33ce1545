import Dorypuppy.Manager.Registry

/-!
# Manager — the exit listener inside the exit step

The listener of the exit event runs in the middle of the exit callback, before `processList.remove`
and `processList.erase`, and may call `start()`.  Both removals are by the bare pid and come after
it, so a child that was started from inside the listener and got the pid of the one that exited is
lost from both maps (`restart_lost`); a Java exception of the listener skips the first removal.

`exit_step_iff`: whatever the listener does, and whatever the other threads do, the exit step of a
registered child takes the entries of this child out of both maps, leaves those of the other
children alone, and leaves the children it has started in both, when the listener returns normally
and no child is put under a pid that is a key of the map it is put in.  When no other thread
registers a child in the meantime, this is the only case in which it does.
-/

namespace Dorypuppy.Manager

open Child (Reached born done)
open Support (Machine History)
open Function (update update_self update_of_ne)

variable {s₀ s₁ s s' : State} {l : Label} {os : List Event} {h : History Label Event}
  {c d : ObjId} {q : Int}

/-! ### The exit step -/

/-- The child has its entries in both maps. -/
structure RegisteredAt (s : State) (c : ObjId) (q : Int) : Prop where
  native : ∃ x, s.nativeList q = some (some x) ∧ x.child = c
  java : ∃ x, s.javaList q = some x ∧ x.child = c

/-- What the exit step of the child `c`, from `s₀` to `s`, should have done: the child is in neither
map, each child that was made and registered in between is in both, and the entries of the children
that were there are the same. -/
structure KeptRight (s₀ s : State) (c : ObjId) : Prop where
  gone : (∀ k x, s.nativeList k = some (some x) → x.child ≠ c) ∧
    ∀ k x, s.javaList k = some x → x.child ≠ c
  started : ∀ d sp, s₀.next ≤ d → s.objs d = some sp → sp.stage = .java →
    RegisteredAt s d sp.child.obj.process.pid
  native : ∀ k x sp, s₀.objs x.child = some sp → x.child ≠ c → sp.stage ≠ .new →
    (s.nativeList k = some (some x) ↔ s₀.nativeList k = some (some x))
  java : ∀ k x sp, s₀.objs x.child = some sp → x.child ≠ c → sp.stage = .java →
    (s.javaList k = some x ↔ s₀.javaList k = some x)

/-- A child is put in a map under a pid that is not a key of it. -/
structure NewKey (s : State) (l : Label) : Prop where
  native : ∀ t mem now call d sp, l = .step t mem now → s.calls t = some call →
    call.pc = .spawning d → s.objs d = some sp → sp.child.pc = .returned 0 →
    s.nativeList sp.child.obj.process.pid = none
  java : ∀ t mem now call d pid, l = .step t mem now → s.calls t = some call →
    call.pc = .javaPut d pid → 0 < pid → s.javaList pid = none

/-- The listener does not throw, and no child is put under a key. -/
structure Keeps (s : State) (l : Label) : Prop where
  returns : l ≠ .listenerThrows
  newKey : NewKey s l

/-- Only the loop thread, from inside the listener, registers a child. -/
def ByLoop (s : State) (l : Label) : Prop :=
  ∀ t mem now call d, l = .step t mem now → s.calls t = some call → call.pc.child? = some d →
    t = .loop

/-! ### The callback and the entries of its child -/

/-- The exit callback of `c` runs, or has ended, and the entries of `c` are there until it takes
them out. -/
structure Phase (s : State) (c : ObjId) (q : Int) : Prop where
  frame : ∀ f, s.frame = some f → f.child = c ∧ f.pid = q ∧ f.method = .exit
  obj : ∃ sp, s.objs c = some sp ∧ sp.stage = .java ∧ born sp.child = true ∧
    sp.child.obj.process.pid = q
  native : (∃ x, s.nativeList q = some (some x) ∧ x.child = c) ↔
    exiting s c JniPc.beforeErase = true
  java : (∃ x, s.javaList q = some x ∧ x.child = c) ↔ exiting s c JniPc.beforeRemove = true
  listening : ∀ f, s.frame = some f → f.pc = .call →
    ∃ x, s.javaList q = some x ∧ ((s.puppies x.puppy).listenerOf .exit).isSome

theorem Phase.exiting (ph : Phase s c q) {f : Frame} {before : JniPc → Bool}
    (hf : s.frame = some f) : exiting s c before = before f.pc :=
  exiting_eq hf (ph.frame f hf).1 (ph.frame f hf).2.2

theorem Phase.later (ph : Phase s c q) (v : Inv s) (hs : Step s l s' os) :
    ∃ sp, s'.objs c = some sp ∧ sp.stage = .java ∧ born sp.child = true ∧
      sp.child.obj.process.pid = q := by
  obtain ⟨sp, hsp, hst, hb, hq⟩ := ph.obj
  obtain ⟨sp', hsp', hl⟩ := step_later v.objects v.calls hs hsp
  exact ⟨sp', hsp', hl.java hst, (hl.born hb).1, (hl.born hb).2.trans hq⟩

/-- The callback goes on to a place on the same side of the removals. -/
theorem Phase.moved (ph : Phase s c q) (v : Inv s) (hs : Step s l s' os) {f : Frame} {pc : JniPc}
    (hf : s.frame = some f) (hf' : s'.frame = some { f with pc := pc })
    (hn : s'.nativeList = s.nativeList) (hj : s'.javaList = s.javaList)
    (he : pc.beforeErase = f.pc.beforeErase) (hr : pc.beforeRemove = f.pc.beforeRemove)
    (hl : pc = .call → ∃ x, s.javaList q = some x ∧
      ((s.puppies x.puppy).listenerOf .exit).isSome) : Phase s' c q := by
  have hframe (f' : Frame) (h : s'.frame = some f') :
      f'.child = c ∧ f'.pid = q ∧ f'.method = .exit := by
    cases hf'.symm.trans h
    exact ph.frame f hf
  have hx (before : JniPc → Bool) : Manager.exiting s' c before = before pc :=
    exiting_eq hf' (hframe _ hf').1 (hframe _ hf').2.2
  refine ⟨hframe, ph.later v hs, ?_, ?_, fun f' h hpc => ?_⟩
  · rw [hn, ph.native, ph.exiting hf, hx, he]
  · rw [hj, ph.java, ph.exiting hf, hx, hr]
  · cases hf'.symm.trans h
    obtain ⟨x, hx, hlis⟩ := hl hpc
    exact ⟨x, hj ▸ hx, listener_stays hs hlis⟩

/-- The callback stays where it is, and the entries of its child with it. -/
theorem Phase.stay (ph : Phase s c q) (v : Inv s) (hs : Step s l s' os)
    (hf : s'.frame = s.frame)
    (hn : (∃ x, s'.nativeList q = some (some x) ∧ x.child = c) ↔
      ∃ x, s.nativeList q = some (some x) ∧ x.child = c)
    (hj : (∃ x, s'.javaList q = some x ∧ x.child = c) ↔
      ∃ x, s.javaList q = some x ∧ x.child = c)
    (hkeep : ∀ x, s.javaList q = some x → s'.javaList q = some x) : Phase s' c q := by
  have hx (before : JniPc → Bool) : Manager.exiting s' c before = Manager.exiting s c before := by
    simp only [Manager.exiting, hf]
  refine ⟨fun f h => ph.frame f (hf ▸ h), ph.later v hs, ?_, ?_, fun f h hpc => ?_⟩
  · rw [hn, ph.native, hx]
  · rw [hj, ph.java, hx]
  · obtain ⟨x, hx, hlis⟩ := ph.listening f (hf ▸ h) hpc
    exact ⟨x, hkeep x hx, listener_stays hs hlis⟩

/-- `processList.remove(pid)`. -/
theorem Phase.removed (ph : Phase s c q) (v : Inv s) (hs : Step s l s' os) {f : Frame}
    (hf : s.frame = some f) (hpc : f.pc = .remove) (hn : s'.nativeList = s.nativeList)
    (hj : s'.javaList = update s.javaList f.pid none)
    (hf' : s'.frame = some { f with pc := .erase }) : Phase s' c q := by
  obtain ⟨hc, rfl, hm⟩ := ph.frame f hf
  have hx (before : JniPc → Bool) : Manager.exiting s' c before = before .erase :=
    exiting_eq hf' hc hm
  refine ⟨fun f' h => ?_, ph.later v hs, ?_, ?_, fun f' h hpc' => ?_⟩
  · cases hf'.symm.trans h
    exact ⟨hc, rfl, hm⟩
  · rw [hn, ph.native, ph.exiting hf, hx, hpc]
    rfl
  · rw [hx, hj, update_self]
    refine iff_of_false ?_ (by decide)
    rintro ⟨x, ⟨⟩, -⟩
  · cases hf'.symm.trans h
    cases hpc'

/-- `processList.erase(pid)`. -/
theorem Phase.erased (ph : Phase s c q) (v : Inv s) (hs : Step s l s' os) {f : Frame}
    (hf : s.frame = some f) (hpc : f.pc = .erase) (hj : s'.javaList = s.javaList)
    (hn : s'.nativeList = update s.nativeList f.pid none)
    (hf' : s'.frame = some { f with pc := .tail }) : Phase s' c q := by
  obtain ⟨hc, rfl, hm⟩ := ph.frame f hf
  have hx (before : JniPc → Bool) : Manager.exiting s' c before = before .tail :=
    exiting_eq hf' hc hm
  refine ⟨fun f' h => ?_, ph.later v hs, ?_, ?_, fun f' h hpc' => ?_⟩
  · cases hf'.symm.trans h
    exact ⟨hc, rfl, hm⟩
  · rw [hx, hn, update_self]
    refine iff_of_false ?_ (by decide)
    rintro ⟨x, ⟨⟩, -⟩
  · rw [hj, ph.java, ph.exiting hf, hx, hpc]
    rfl
  · cases hf'.symm.trans h
    cases hpc'

/-- The end of the callback. -/
theorem Phase.over (ph : Phase s c q) (v : Inv s) (hs : Step s l s' os) {f : Frame}
    (hf : s.frame = some f) (hpc : f.pc = .tail) (hn : s'.nativeList = s.nativeList)
    (hj : s'.javaList = s.javaList) (hf' : s'.frame = none) : Phase s' c q := by
  have hx (before : JniPc → Bool) : Manager.exiting s' c before = false := by
    simp only [Manager.exiting, hf', Option.any_none]
  have hnone (f' : Frame) : s'.frame ≠ some f' := hf' ▸ (Option.some_ne_none f').symm
  refine ⟨fun f' h => absurd h (hnone f'), ph.later v hs, ?_, ?_, fun f' h => absurd h (hnone f')⟩
  · rw [hn, ph.native, ph.exiting hf, hx, hpc]
    rfl
  · rw [hj, ph.java, ph.exiting hf, hx, hpc]
    rfl

theorem step_phase (ph : Phase s c q) (v : Inv s) (hin : s.frame.isSome)
    (hC : Keeps s l) (hcr : s'.crashed = false) (hs : Step s l s' os) : Phase s' c q := by
  have hst := hs
  obtain ⟨spc, hspc, hjava, -, -⟩ := ph.obj
  cases hs with
  | nativePut hc hpc hsp hret =>
      have hnew := (v.calls.spawning hc hpc hsp).2
      have hnone := hC.newKey.native _ _ _ _ _ _ rfl hc hpc hsp hret
      rw [← ((v.objects.reached _ _ hsp).1.started hret).2] at hnone
      refine ph.stay v hst rfl ?_ Iff.rfl fun _ h => h
      dsimp only
      rw [Function.update_apply]
      split
      · -- an entry of another child under a key that was free
        subst q
        refine iff_of_false ?_ ?_
        · rintro ⟨x, ⟨⟩, rfl⟩
          cases hspc.symm.trans hsp
          rw [hnew] at hjava
          cases hjava
        · rintro ⟨x, hx, -⟩
          rw [hnone] at hx
          cases hx
      · exact Iff.rfl
  | javaPut hc hpc hsp hpos =>
      have hnative := (v.calls.javaPut hc hpc hsp hpos).2.1
      have hnone := hC.newKey.java _ _ _ _ _ _ rfl hc hpc hpos
      have hkeep (x : JavaEntry) (hx : s.javaList q = some x) : q ≠ _ :=
        fun hq => Option.some_ne_none x (hx.symm.trans (hq ▸ hnone))
      refine ph.stay v hst rfl Iff.rfl ?_ fun x hx => ?_
      · dsimp only
        rw [Function.update_apply]
        split
        · subst q
          refine iff_of_false ?_ ?_
          · rintro ⟨x, ⟨⟩, rfl⟩
            cases hspc.symm.trans hsp
            rw [hnative] at hjava
            cases hjava
          · rintro ⟨x, hx, -⟩
            rw [hnone] at hx
            cases hx
        · exact Iff.rfl
      · exact (update_of_ne (hkeep x hx) _ _).trans hx
  | nullDeref => cases hcr
  | callback hnone | callbackInvoke hnone =>
      rw [hnone] at hin
      cases hin
  | @jniMove now f pc' hf hm =>
      obtain ⟨-, hq, hexit⟩ := ph.frame f hf
      have hentry (hb : f.pc.beforeRemove = true) := ph.java.mpr ((ph.exiting hf).trans hb)
      generalize hpc : f.pc = pc at hm
      cases hm with
      | contains =>
          refine ph.moved v hst hf rfl rfl rfl ?_ ?_ ?_
          · simp [Frame.found, hexit, hpc, JniPc.beforeErase]
          · simp [Frame.found, hexit, hpc, JniPc.beforeRemove]
          · simp [Frame.found, hexit]
      | absent hnone =>
          obtain ⟨x, hx, -⟩ := hentry (by rw [hpc]; rfl)
          rw [hq, hx] at hnone
          cases hnone
      | listener he hlis =>
          rw [hexit] at hlis
          exact ph.moved v hst hf rfl rfl rfl (by rw [hpc]; rfl) (by rw [hpc]; rfl)
            fun _ => ⟨_, hq ▸ he, hlis⟩
      | noListener =>
          refine ph.moved v hst hf rfl rfl rfl ?_ ?_ ?_
          · simp [Frame.after, hexit, hpc, JniPc.beforeErase]
          · simp [Frame.after, hexit, hpc, JniPc.beforeRemove]
          · simp [Frame.after, hexit]
  | @write now f w pc' e hf hw he =>
      obtain ⟨-, hfound, hpc'⟩ := Frame.write_pc hw
      have hb := JniPc.beforeRemove_of_found hfound
      have hb' : pc'.beforeRemove = true := by rcases hpc' with rfl | rfl | rfl <;> rfl
      refine ph.moved v hst hf rfl rfl rfl ?_ (hb'.trans hb.symm) ?_
      · rw [JniPc.beforeErase_of_remove hb, JniPc.beforeErase_of_remove hb']
      · rcases hpc' with rfl | rfl | rfl <;> (intro h; cases h)
  | listener hf hpc =>
      exact ph.moved v hst hf rfl rfl rfl (by rw [hpc]; rfl) (by rw [hpc]; rfl) fun h => by cases h
  | @nullPointer now f hf hpc hnone =>
      obtain ⟨-, hq, hexit⟩ := ph.frame f hf
      have hfound : f.pc.hasFound = true := by rcases hpc with h | h | h | h | h <;> rw [h] <;> rfl
      obtain ⟨x, hx, -⟩ :=
        ph.java.mpr ((ph.exiting hf).trans (JniPc.beforeRemove_of_found hfound))
      obtain ⟨hcall, hlis⟩ := hnone x (hq ▸ hx)
      obtain ⟨x', hx', hlis'⟩ := ph.listening f hf hcall
      cases hx.symm.trans hx'
      rw [hexit] at hlis
      rw [hlis] at hlis'
      cases hlis'
  | remove hf hpc => exact ph.removed v hst hf hpc rfl rfl rfl
  | erase hf hpc => exact ph.erased v hst hf hpc rfl rfl rfl
  | tail hf hpc => exact ph.over v hst hf hpc rfl rfl rfl
  | @listenerReturns f hf hpc =>
      obtain ⟨-, -, hexit⟩ := ph.frame f hf
      refine ph.moved v hst hf rfl rfl rfl ?_ ?_ ?_
      · simp [Frame.after, hexit, hpc, JniPc.beforeErase]
      · simp [Frame.after, hexit, hpc, JniPc.beforeRemove]
      · simp [Frame.after, hexit]
  | listenerThrows => exact absurd rfl hC.returns
  | _ => exact ph.stay v hst rfl Iff.rfl Iff.rfl fun _ h => h

/-! ### The entries of the others -/

/-- The entries of the children that were there in `s₀`, other than `c`, are the same, and the
children made since have theirs. -/
structure Others (s₀ s : State) (c : ObjId) : Prop where
  next : s₀.next ≤ s.next
  later : ∀ d sp, s₀.objs d = some sp → ∃ sp', s.objs d = some sp' ∧ sp.Later sp'
  native : ∀ k x, s₀.nativeList k = some (some x) → x.child ≠ c → s.nativeList k = some (some x)
  java : ∀ k x, s₀.javaList k = some x → x.child ≠ c → s.javaList k = some x
  nativeBack : ∀ k x sp, s.nativeList k = some (some x) → s₀.objs x.child = some sp →
    sp.stage ≠ .new → s₀.nativeList k = some (some x)
  javaBack : ∀ k x sp, s.javaList k = some x → s₀.objs x.child = some sp → sp.stage = .java →
    s₀.javaList k = some x
  nativeNew : ∀ d sp, s₀.next ≤ d → s.objs d = some sp → sp.stage ≠ .new →
    ∃ x, s.nativeList sp.child.obj.process.pid = some (some x) ∧ x.child = d
  javaNew : ∀ d sp, s₀.next ≤ d → s.objs d = some sp → sp.stage = .java →
    ∃ x, s.javaList sp.child.obj.process.pid = some x ∧ x.child = d

theorem Others.refl (v : Inv s) : Others s s c := by
  refine ⟨le_rfl, fun d sp h => ⟨sp, h, .refl sp⟩, fun _ _ h _ => h, fun _ _ h _ => h,
    fun _ _ _ h _ _ => h, fun _ _ _ h _ _ => h, fun d sp hd h => ?_, fun d sp hd h => ?_⟩
  all_goals exact absurd (v.objects.lt h) (Nat.not_lt.mpr hd)

theorem step_next (hs : Step s l s' os) : s.next ≤ s'.next := by
  cases hs with
  | create => exact Nat.le_succ _
  | _ => exact le_rfl

theorem later_step {sp : Spawn} (v : Inv s) (hs : Step s l s' os)
    (h : ∃ sp', s.objs d = some sp' ∧ sp.Later sp') :
    ∃ sp', s'.objs d = some sp' ∧ sp.Later sp' := by
  obtain ⟨sp₁, h₁, hl₁⟩ := h
  obtain ⟨sp₂, h₂, hl₂⟩ := step_later v.objects v.calls hs h₁
  exact ⟨sp₂, h₂, hl₁.trans hl₂⟩

/-- A child that a call puts in the native map was in neither map before. -/
theorem Puts.not_native {sp : Spawn} {k : Int} (hp : Puts s l d .new k)
    (h : ∃ sp', s.objs d = some sp' ∧ sp.Later sp') : sp.stage = .new := by
  obtain ⟨t, mem, now, call, sp₀, -, -, -, hsp₀, hnew, -⟩ := hp
  obtain ⟨sp₁, hsp₁, hl⟩ := h
  cases hsp₀.symm.trans hsp₁
  by_contra hst
  exact hl.notNew hst hnew

/-- A child that a call puts in the Java map was not in it before. -/
theorem Puts.not_java {sp : Spawn} {k : Int} (hp : Puts s l d .native k)
    (h : ∃ sp', s.objs d = some sp' ∧ sp.Later sp') : sp.stage ≠ .java := by
  obtain ⟨t, mem, now, call, sp₀, -, -, -, hsp₀, hnative, -⟩ := hp
  obtain ⟨sp₁, hsp₁, hl⟩ := h
  cases hsp₀.symm.trans hsp₁
  intro hst
  cases hnative.symm.trans (hl.java hst)

theorem Others.same (o : Others s₀ s c) (v : Inv s) (hs : Step s l s' os)
    (hn : s'.nativeList = s.nativeList) (hj : s'.javaList = s.javaList)
    (hobj : ∀ d sp', s'.objs d = some sp' → sp'.stage ≠ .new → ∃ sp, s.objs d = some sp ∧
      sp.stage = sp'.stage ∧ sp.child.obj.process.pid = sp'.child.obj.process.pid) :
    Others s₀ s' c := by
  refine ⟨o.next.trans (step_next hs), fun d sp h => later_step v hs (o.later d sp h), ?_, ?_, ?_,
    ?_, fun d sp' hd h hst => ?_, fun d sp' hd h hst => ?_⟩
  · rw [hn]; exact o.native
  · rw [hj]; exact o.java
  · rw [hn]; exact o.nativeBack
  · rw [hj]; exact o.javaBack
  · obtain ⟨sp, hsp, hst', hpid⟩ := hobj d sp' h hst
    rw [hn, ← hpid]
    exact o.nativeNew d sp hd hsp (hst' ▸ hst)
  · obtain ⟨sp, hsp, hst', hpid⟩ := hobj d sp' h (by rw [hst]; decide)
    rw [hj, ← hpid]
    exact o.javaNew d sp hd hsp (hst'.trans hst)

theorem step_others (o : Others s₀ s c) (v : Inv s) (ph : Phase s c q) (hc : c < s₀.next)
    (hC : NewKey s l) (hcr : s'.crashed = false) (hs : Step s l s' os) : Others s₀ s' c := by
  have next := o.next.trans (step_next hs)
  have later (d : ObjId) (sp : Spawn) (h : s₀.objs d = some sp) := later_step v hs (o.later d sp h)
  have nativeBack (k : Int) (x : NativeEntry) (sp : Spawn) (h : s'.nativeList k = some (some x))
      (hsp : s₀.objs x.child = some sp) (hst : sp.stage ≠ .new) :
      s₀.nativeList k = some (some x) := by
    rcases native_back v hs h with h | hp
    · exact o.nativeBack k x sp h hsp hst
    · exact absurd (hp.not_native (o.later _ _ hsp)) hst
  have javaBack (k : Int) (x : JavaEntry) (sp : Spawn) (h : s'.javaList k = some x)
      (hsp : s₀.objs x.child = some sp) (hst : sp.stage = .java) : s₀.javaList k = some x := by
    rcases java_back v hs h with h | hp
    · exact o.javaBack k x sp h hsp hst
    · exact absurd hst (hp.not_java (o.later _ _ hsp))
  cases map_step v hs with
  | same hn hj hobj => exact o.same v hs hn hj hobj
  | @nativePut t mem now call d₀ sp₀ hcall hpc hsp₀ hnew hret hn hj ho =>
      have hfree := hC.native t mem now call d₀ sp₀ rfl hcall hpc hsp₀ hret
      -- what is under another key stays
      have old {k : Int} {x : NativeEntry} (h : s.nativeList k = some (some x)) :
          s'.nativeList k = some (some x) := by
        rw [hn, update_of_ne]
        · exact h
        · rintro rfl
          rw [hfree] at h
          cases h
      refine ⟨next, later, fun k x h hne => old (o.native k x h hne), by rw [hj]; exact o.java,
        nativeBack, javaBack, fun d sp' hd h hst => ?_, fun d sp' hd h hst => ?_⟩
      · rw [ho] at h
        rcases update_some h with ⟨rfl, rfl⟩ | h
        · exact ⟨_, by rw [hn, update_self], rfl⟩
        · obtain ⟨x, hx, hxd⟩ := o.nativeNew d sp' hd h hst
          exact ⟨x, old hx, hxd⟩
      · rw [ho] at h
        rcases update_some h with ⟨rfl, rfl⟩ | h
        · cases hst
        · rw [hj]
          exact o.javaNew d sp' hd h hst
  | @javaPut t mem now call d₀ pid sp₀ hcall hpc hsp₀ hnative hpid hpos hn hj ho =>
      have hfree := hC.java t mem now call d₀ pid rfl hcall hpc hpos
      have old {k : Int} {x : JavaEntry} (h : s.javaList k = some x) :
          s'.javaList k = some x := by
        rw [hj, update_of_ne]
        · exact h
        · rintro rfl
          rw [hfree] at h
          cases h
      refine ⟨next, later, by rw [hn]; exact o.native, fun k x h hne => old (o.java k x h hne),
        nativeBack, javaBack, fun d sp' hd h hst => ?_, fun d sp' hd h hst => ?_⟩
      · rw [ho] at h
        rw [hn]
        rcases update_some h with ⟨rfl, rfl⟩ | h
        · exact o.nativeNew d sp₀ hd hsp₀ (by rw [hnative]; decide)
        · exact o.nativeNew d sp' hd h hst
      · rw [ho] at h
        rcases update_some h with ⟨rfl, rfl⟩ | h
        · exact ⟨_, by rw [hj, hpid, update_self], rfl⟩
        · obtain ⟨x, hx, hxd⟩ := o.javaNew d sp' hd h hst
          exact ⟨x, old hx, hxd⟩
  | @remove now f hf hpc hn hj ho _ =>
      obtain ⟨-, rfl, -⟩ := ph.frame f hf
      -- what is removed is the entry of `c`
      obtain ⟨y, hy, hyc⟩ := ph.java.mpr ((ph.exiting hf).trans (by rw [hpc]; rfl))
      have old {k : Int} {x : JavaEntry} (h : s.javaList k = some x) (hne : x.child ≠ c) :
          s'.javaList k = some x := by
        rw [hj, update_of_ne]
        · exact h
        · rintro rfl
          cases hy.symm.trans h
          exact hne hyc
      refine ⟨next, later, by rw [hn]; exact o.native,
        fun k x h hne => old (o.java k x h hne) hne, nativeBack, javaBack,
        by rw [hn, ho]; exact o.nativeNew, fun d sp' hd h hst => ?_⟩
      rw [ho] at h
      obtain ⟨x, hx, hxd⟩ := o.javaNew d sp' hd h hst
      exact ⟨x, old hx fun hxc => (hc.trans_le hd).ne (hxc.symm.trans hxd), hxd⟩
  | @erase now f hf hpc hn hj ho _ =>
      obtain ⟨-, rfl, -⟩ := ph.frame f hf
      obtain ⟨y, hy, hyc⟩ := ph.native.mpr ((ph.exiting hf).trans (by rw [hpc]; rfl))
      have old {k : Int} {x : NativeEntry} (h : s.nativeList k = some (some x))
          (hne : x.child ≠ c) :
          s'.nativeList k = some (some x) := by
        rw [hn, update_of_ne]
        · exact h
        · rintro rfl
          cases hy.symm.trans h
          exact hne hyc
      refine ⟨next, later, fun k x h hne => old (o.native k x h hne) hne,
        by rw [hj]; exact o.java, nativeBack, javaBack, fun d sp' hd h hst => ?_,
        by rw [hj, ho]; exact o.javaNew⟩
      rw [ho] at h
      obtain ⟨x, hx, hxd⟩ := o.nativeNew d sp' hd h hst
      exact ⟨x, old hx fun hxc => (hc.trans_le hd).ne (hxc.symm.trans hxd), hxd⟩
  | null _ _ hnull =>
      rw [hcr] at hnull
      cases hnull

/-! ### From the callback to its end -/

theorem step_crashed (hs : Step s l s' os) :
    s'.crashed = s.crashed ∨ s'.frame = s.frame := by
  cases hs with
  | nullDeref => exact .inr rfl
  | _ => exact .inl rfl

/-- The callback does not end after a null entry. -/
theorem run_ended (hf₁ : s₁.frame.isSome = true)
    (r : machine.RunWhere (fun s _ => s.frame.isSome = true) s₁ h s) (hf : s.frame = none) :
    s.crashed = false := by
  revert hf
  refine r.inv (fun _ s => s.frame = none → s.crashed = false) (fun hf => ?_) ?_
  · rw [hf] at hf₁
    cases hf₁
  · intro h s s' l os _ hin hs _ hf
    obtain ⟨hcr, hst⟩ := step_inv hs
    rcases step_crashed hst with h | h
    · exact h.trans hcr
    · rw [← h, hf] at hin
      cases hin

/-- The exit callback of a registered child begins. -/
theorem exit_begins (v : Inv s₀) (hreg : RegisteredAt s₀ c q) {i : Input}
    (hs : s₀.step (.callback c i) = some (s₁, os)) (hexit : s₁.frame.any (·.method = .exit)) :
    c < s₀.next ∧ Phase s₁ c q ∧ Others s₀ s₁ c := by
  obtain ⟨f, hf, hm⟩ := (Option.any_eq_true _ _).mp hexit
  have hm : f.method = .exit := of_decide_eq_true hm
  have hst := (step_inv hs).2
  obtain ⟨⟨x, hx, hxc⟩, ⟨y, hy, hyc⟩⟩ := hreg
  obtain ⟨sp, hsp, hjava, -, hb, hq⟩ := v.entries.java q y hy
  rw [hyc] at hsp
  obtain ⟨sp', hsp', hl⟩ := step_later v.objects v.calls hst hsp
  obtain ⟨hb', hq'⟩ := hl.born hb
  obtain ⟨sp₁, hsp₁, hborn, -⟩ := (step_keeps_inv v hs).frames.obj f hf
  have hpid := (hborn (by rw [hm]; decide)).2
  cases hst with
  | callback hnone =>
      rw [show s₀.frame = some f from hf] at hnone
      cases hnone
  | @callbackInvoke _ _ _ ch as k args pid hnone hsp₀ hcb hinv =>
      cases hf
      cases hsp'.symm.trans hsp₁
      have hpid : pid = q := hpid.trans (hq'.trans hq)
      subst hpid
      refine ⟨v.objects.lt hsp, ⟨?_, ⟨sp', hsp', hl.java hjava, hb', hq'.trans hq⟩, ?_, ?_, ?_⟩,
        (Others.refl v).same v (step_inv hs).2 rfl rfl ?_⟩
      · rintro f ⟨rfl⟩
        exact ⟨rfl, rfl, hm⟩
      · exact iff_of_true ⟨x, hx, hxc⟩ (exiting_eq rfl rfl hm)
      · exact iff_of_true ⟨y, hy, hyc⟩ (exiting_eq rfl rfl hm)
      · rintro f ⟨rfl⟩ hpc
        cases hpc
      · intro d spd hd _
        rcases update_some hd with ⟨rfl, rfl⟩ | hd
        · refine ⟨_, hsp₀, rfl, ?_⟩
          cases hsp₀.symm.trans hsp
          cases (update_self (f := s₀.objs) ..).symm.trans hsp'
          exact hq'.symm
        · exact ⟨spd, hd, rfl, rfl⟩

theorem run_keeps (v : Inv s₁) (ph : Phase s₁ c q) (o : Others s₀ s₁ c) (hc : c < s₀.next)
    (r : machine.RunWhere (fun s l => s.frame.isSome = true ∧ Keeps s l) s₁ h s) :
    Inv s ∧ (s.crashed = false → Phase s c q ∧ Others s₀ s c) := by
  refine r.inv (fun _ s => Inv s ∧ (s.crashed = false → Phase s c q ∧ Others s₀ s c))
    ⟨v, fun _ => ⟨ph, o⟩⟩ ?_
  rintro h s s' l os - ⟨hin, hC⟩ hs ⟨v, ih⟩
  obtain ⟨hcr, hst⟩ := step_inv hs
  obtain ⟨ph, o⟩ := ih hcr
  exact ⟨step_keeps_inv v hs, fun hcr' => ⟨step_phase ph v hin hC hcr' hst,
    step_others o v ph hc hC.newKey hcr' hst⟩⟩

theorem kept_right (v : Inv s) (ph : Phase s c q) (o : Others s₀ s c) (hf : s.frame = none) :
    KeptRight s₀ s c := by
  have hx (before : JniPc → Bool) : ¬ exiting s c before = true := by simp [exiting, hf]
  obtain ⟨spc, hspc, -, -, hq⟩ := ph.obj
  refine ⟨⟨fun k x hk hxc => ?_, fun k x hk hxc => ?_⟩, fun d sp hd hsp hst => ⟨?_, ?_⟩,
    fun k x sp hsp hne hst => ⟨fun h => o.nativeBack k x sp h hsp hst, fun h => o.native k x h hne⟩,
    fun k x sp hsp hne hst => ⟨fun h => o.javaBack k x sp h hsp hst, fun h => o.java k x h hne⟩⟩
  · obtain ⟨sp, hsp, -, -, hk', -⟩ := v.entries.native k x hk
    rw [hxc] at hsp
    cases hspc.symm.trans hsp
    obtain rfl := hk'.symm.trans hq
    exact hx _ (ph.native.mp ⟨x, hk, hxc⟩)
  · obtain ⟨sp, hsp, -, -, -, hk'⟩ := v.entries.java k x hk
    rw [hxc] at hsp
    cases hspc.symm.trans hsp
    obtain rfl := hk'.symm.trans hq
    exact hx _ (ph.java.mp ⟨x, hk, hxc⟩)
  · exact o.nativeNew d sp hd hsp (by rw [hst]; decide)
  · exact o.javaNew d sp hd hsp hst

/-! ### When only the listener registers children -/

/-- The loop thread is inside a call while it is in a listener only. -/
def LoopCalls (s : State) : Prop :=
  ∀ call, s.calls .loop = some call → ∃ f, s.frame = some f ∧ f.pc = .inListener

theorem step_loopCalls (k : LoopCalls s) (hs : Step s l s' os) : LoopCalls s' := by
  intro call hc
  -- the call was there, or begins inside a listener
  have before : (∃ f, s.frame = some f ∧ f.pc = .inListener) ∧
      ((∃ call, s.calls .loop = some call) ∨ ∃ p api, l = .call .loop p api) := by
    rcases call_back hs hc with hc | ⟨p, api, rfl, -, -⟩ | ⟨_, _, call₀, -, hc, -, -⟩
    · exact ⟨k call hc, .inl ⟨call, hc⟩⟩
    · cases hs with
      | call _ hcan =>
          obtain ⟨f, hf, hpc⟩ := (Option.any_eq_true _ _).mp hcan
          exact ⟨⟨f, hf, of_decide_eq_true hpc⟩, .inr ⟨p, api, rfl⟩⟩
    · exact ⟨k call₀ hc, .inl ⟨call₀, hc⟩⟩
  obtain ⟨⟨f, hf, hpc⟩, hthere⟩ := before
  have idle (hnone : s.calls .loop = none) (hl : ∀ p api, l ≠ .call .loop p api) : False := by
    rcases hthere with ⟨call, hc⟩ | ⟨p, api, hcall⟩
    · rw [hnone] at hc
      cases hc
    · exact hl p api hcall
  cases hs with
  | callback hnone | callbackInvoke hnone =>
      rw [hnone] at hf
      cases hf
  | jniMove hf₀ hm =>
      cases hf.symm.trans hf₀
      rw [hpc] at hm
      cases hm
  | write hf₀ hw =>
      cases hf.symm.trans hf₀
      rw [Frame.write?, hpc] at hw
      cases hw
  | nullPointer hf₀ hpc₀ =>
      cases hf.symm.trans hf₀
      rw [hpc] at hpc₀
      rcases hpc₀ with h | h | h | h | h <;> cases h
  | listener hf₀ hpc₀ | remove hf₀ hpc₀ | erase hf₀ hpc₀ | tail hf₀ hpc₀ =>
      cases hf.symm.trans hf₀
      cases hpc.symm.trans hpc₀
  | listenerReturns _ _ hnone | listenerThrows _ _ hnone =>
      exact (idle hnone nofun).elim
  | _ => exact ⟨f, hf, hpc⟩

theorem run_loopCalls {puppies : PuppyId → List (Option JString) × StringTable}
    {C : State → Label → Prop} (r : machine.RunWhere C (.init puppies) h s) : LoopCalls s := by
  refine r.inv (fun _ s => LoopCalls s) ?_ ?_
  · intro call hc
    cases hc
  · intro h s s' l os _ _ hs k
    exact step_loopCalls k (step_inv hs).2

/-- What holds inside the exit step, whatever the listener does: the children made in it by the loop
thread live, and what was put in the maps is theirs. -/
structure Inside (s₀ s : State) (c : ObjId) (q : Int) : Prop where
  inv : Inv s
  frame : ∀ f, s.frame = some f → f.child = c ∧ f.pid = q ∧ f.method = .exit
  next : s₀.next ≤ s.next
  later : ∀ d sp, s₀.objs d = some sp → ∃ sp', s.objs d = some sp' ∧ sp.Later sp'
  loop : LoopCalls s
  calls : ∀ call d, s.calls .loop = some call → call.pc.child? = some d → s₀.next ≤ d
  alive : ∀ d sp, s₀.next ≤ d → s.objs d = some sp → sp.child.obj.exited = false
  native : s.crashed = false → ∀ k x, s.nativeList k = some (some x) →
    s₀.next ≤ x.child ∨ s₀.nativeList k = some (some x)
  java : s.crashed = false → ∀ k x, s.javaList k = some x →
    s₀.next ≤ x.child ∨ s₀.javaList k = some x

/-- A pid belongs to one child among those made inside the step. -/
theorem Inside.one (I : Inside s₀ s c q) {d d' : ObjId} {sp sp' : Spawn} (hd : s₀.next ≤ d)
    (hd' : s₀.next ≤ d') (h : s.objs d = some sp) (h' : s.objs d' = some sp')
    (hb : born sp.child = true) (hb' : born sp'.child = true)
    (hp : sp.child.obj.process.pid = sp'.child.obj.process.pid) : d = d' := by
  have holds {d : ObjId} {sp : Spawn} (hd : s₀.next ≤ d) (h : s.objs d = some sp)
      (hb : born sp.child = true) : s.os sp.child.obj.process.pid = some (.child d) := by
    refine (I.inv.objects.holder _ d).mpr ⟨sp, h, ?_, rfl⟩
    rw [(I.inv.objects.reached d sp h).1.watched_eq, hb, I.alive d sp hd h]
    rfl
  have := (holds hd h hb).symm.trans (hp ▸ holds hd' h' hb')
  cases this
  rfl

theorem step_inside (I : Inside s₀ s c q) (hin : s.frame.isSome = true) (hby : ByLoop s l)
    (hs : s.step l = some (s', os)) : Inside s₀ s' c q := by
  have v := I.inv
  obtain ⟨hcr, hst⟩ := step_inv hs
  refine ⟨step_keeps_inv v hs, fun f hf => ?_, I.next.trans (step_next hst), fun d sp h => ?_,
    step_loopCalls I.loop hst, fun call d hc hch => ?_, fun d sp' hd h => ?_, fun hcr' k x h => ?_,
    fun hcr' k x h => ?_⟩
  · rcases frame_back hst hf with ⟨f₀, hf₀, hff, -⟩ | ⟨-, hnone, -⟩
    · rw [hff]
      exact I.frame f₀ hf₀
    · rw [hnone] at hin
      cases hin
  · exact later_step v hst (I.later d sp h)
  · rcases child_back hst hc hch with rfl | ⟨call₀, hc₀, hch₀⟩
    · exact I.next
    · exact I.calls call₀ d hc₀ hch₀
  · cases obj_change hst h with
    | same h' _ => exact I.alive d sp' hd h'
    | new => rfl
    | put _ h' =>
        have hx := I.alive d _ hd h'
        exact hx
    | @spawn t i _ _ _ _ _ _ h' hst' =>
        have hx := Child.step_exited (Child.spawnStep_step hst')
        rw [I.alive d _ hd h'] at hx
        cases i with
        | exitCb => simp [Child.spawnStep] at hst'
        | _ => exact hx
    | callback =>
        cases hst with
        | callback hnone | callbackInvoke hnone => rw [hnone] at hin; cases hin
  · rcases native_back v hst h with h | ⟨t, mem, now, call, sp, hl, hc, hch, -⟩
    · exact I.native hcr k x h
    · obtain rfl := hby t mem now call _ hl hc hch
      exact .inl (I.calls call _ hc hch)
  · rcases java_back v hst h with h | ⟨t, mem, now, call, sp, hl, hc, hch, -⟩
    · exact I.java hcr k x h
    · obtain rfl := hby t mem now call _ hl hc hch
      exact .inl (I.calls call _ hc hch)

/-- What cannot be put right before the step is over: the listener has thrown and the entry of `c`
stays in the Java map, a child was put under the pid whose entries are taken out, or an entry of
another child was lost. -/
inductive Broken (s₀ s : State) (c : ObjId) (q : Int) : Prop where
  | threw {x : JavaEntry} : s.calls .loop = none → exiting s c JniPc.beforeRemove = false →
      s.javaList q = some x → x.child = c → Broken s₀ s c q
  | stolen {d : ObjId} {sp : Spawn} : s₀.next ≤ d → s.objs d = some sp → sp.stage ≠ .new →
      sp.child.obj.process.pid = q →
      (∀ t call, s.calls t = some call → call.pc.child? = some d → t = .loop) →
      exiting s c JniPc.beforeErase = true ∨ s.calls .loop = none ∧ s.nativeList q = none →
      Broken s₀ s c q
  | native {k : Int} {x : NativeEntry} {sp : Spawn} : s₀.objs x.child = some sp → x.child ≠ c →
      sp.stage ≠ .new → s₀.nativeList k = some (some x) → s.nativeList k ≠ some (some x) →
      Broken s₀ s c q
  | java {k : Int} {x : JavaEntry} {sp : Spawn} : s₀.objs x.child = some sp → x.child ≠ c →
      sp.stage = .java → s₀.javaList k = some x → s.javaList k ≠ some x → Broken s₀ s c q

/-- The loop thread begins a call from inside a listener only. -/
theorem loop_idle (hnone : s.calls .loop = none)
    (hnot : ∀ f, s.frame = some f → f.pc ≠ .inListener) (hs : Step s l s' os) :
    s'.calls .loop = none := by
  by_contra hsome
  obtain ⟨call, hc⟩ := Option.ne_none_iff_exists'.mp hsome
  rcases call_back hs hc with hc | ⟨p, api, rfl, -, -⟩ | ⟨_, _, _, -, hc, -, -⟩
  · rw [hnone] at hc
    cases hc
  · cases hs with
    | call _ hcan =>
        obtain ⟨f, hf, hpc⟩ := (Option.any_eq_true _ _).mp hcan
        exact hnot f hf (of_decide_eq_true hpc)
  · rw [hnone] at hc
    cases hc

/-- The callback is before `erase` until it comes to it. -/
theorem exiting_forth (hs : Step s l s' os) (hx : exiting s c JniPc.beforeErase = true) :
    exiting s' c JniPc.beforeErase = true ∨
      ∃ f, s.frame = some f ∧ f.child = c ∧ f.pc = .erase ∧
        s'.nativeList = update s.nativeList f.pid none := by
  obtain ⟨f, hf, hc, hm, hb⟩ := exiting_iff.mp hx
  have stay {pc : JniPc} (hf' : s'.frame = some { f with pc := pc })
      (hb' : pc.beforeErase = true) : exiting s' c JniPc.beforeErase = true :=
    exiting_iff.mpr ⟨_, hf', hc, hm, hb'⟩
  have hafter : f.after.beforeErase = true := by simp [Frame.after, hm, JniPc.beforeErase]
  have hthrown : f.thrown.beforeErase = true := by simp [Frame.thrown, hm, JniPc.beforeErase]
  cases hs with
  | callback hnone | callbackInvoke hnone =>
      rw [hnone] at hf
      cases hf
  | @jniMove now f₀ pc' hf₀ hmove =>
      cases hf₀.symm.trans hf
      refine .inl (stay rfl ?_)
      generalize f.pc = pc at hmove
      cases hmove with
      | contains => simp [Frame.found, hm, JniPc.beforeErase]
      | absent | noListener => exact hafter
      | listener => rfl
  | write hf₀ hw =>
      cases hf₀.symm.trans hf
      refine .inl (stay rfl ?_)
      rcases (Frame.write_pc hw).2.2 with rfl | rfl | rfl <;> rfl
  | listener hf₀ | remove hf₀ =>
      cases hf₀.symm.trans hf
      exact .inl (stay rfl rfl)
  | nullPointer hf₀ | listenerThrows hf₀ =>
      cases hf₀.symm.trans hf
      exact .inl (stay rfl hthrown)
  | listenerReturns hf₀ =>
      cases hf₀.symm.trans hf
      exact .inl (stay rfl hafter)
  | erase hf₀ hpc =>
      cases hf₀.symm.trans hf
      exact .inr ⟨f, hf, hc, hpc, rfl⟩
  | tail hf₀ hpc =>
      cases hf₀.symm.trans hf
      rw [hpc] at hb
      cases hb
  | _ => exact .inl (exiting_iff.mpr ⟨f, hf, hc, hm, hb⟩)

theorem step_broken (b : Broken s₀ s c q) (I : Inside s₀ s c q) (hin : s.frame.isSome = true)
    (hby : ByLoop s l) (hcr : s'.crashed = false) (hs : Step s l s' os) : Broken s₀ s' c q := by
  have v := I.inv
  obtain ⟨f, hf⟩ := Option.isSome_iff_exists.mp hin
  obtain ⟨hfc, hfq, hm⟩ := I.frame f hf
  have hat (before : JniPc → Bool) : exiting s c before = before f.pc := exiting_eq hf hfc hm
  -- no other thread puts a child in a map
  have noPut {t : Tid} {mem : Uninit} {now : Date} {call : Call} {d : ObjId}
      (hnone : s.calls .loop = none) (hl : l = .step t mem now) (hc : s.calls t = some call)
      (hch : call.pc.child? = some d) : False := by
    have ht := hby t mem now call d hl hc hch
    rw [ht, hnone] at hc
    cases hc
  have notIn {before : JniPc → Bool} (hx : exiting s c before = false)
      (hb : before .inListener = true) (f' : Frame) (hf' : s.frame = some f') :
      f'.pc ≠ .inListener := by
    rintro hpc
    cases hf.symm.trans hf'
    rw [hat, hpc, hb] at hx
    cases hx
  cases b with
  | @threw x hidle hx hj hxc =>
      refine .threw (loop_idle hidle (notIn hx rfl) hs) ?_ ?_ hxc
      · refine Bool.eq_false_iff.mpr fun hx' => ?_
        rcases exiting_back v hs hx' with hx'' | ⟨sp, hsp, hd⟩
        · rw [hx] at hx''
          cases hx''
        · obtain ⟨sp', hsp', -, hd'⟩ := v.frames.obj f hf
          rw [hfc] at hsp'
          cases hsp.symm.trans hsp'
          rw [hd' hm] at hd
          cases hd
      · cases map_step v hs with
        | same _ hj' | nativePut _ _ _ _ _ _ hj' | erase _ _ _ hj' | null hj' => rwa [hj']
        | javaPut hc hpc => exact (noPut hidle rfl hc (by rw [hpc]; rfl)).elim
        | remove hf' hpc =>
            cases hf.symm.trans hf'
            rw [hat, hpc] at hx
            cases hx
  | @stolen d sp hd hsp hst hq hcalls hend =>
      obtain ⟨sp', hsp', hl⟩ := step_later v.objects v.calls hs hsp
      have hb := ((v.objects.reached d sp hsp).1.started (v.calls.put d sp hsp hst)).1
      refine .stolen hd hsp' (hl.notNew hst) ((hl.born hb).2.trans hq) (fun t call hc hch => ?_) ?_
      · rcases child_back hs hc hch with rfl | ⟨call₀, hc₀, hch₀⟩
        · exact absurd (v.objects.lt hsp) (lt_irrefl _)
        · exact hcalls t call₀ hc₀ hch₀
      · by_cases hx : exiting s c JniPc.beforeErase = true
        · rcases exiting_forth hs hx with hx' | ⟨f', hf', -, hpc, hn⟩
          · exact .inl hx'
          · -- the callback takes the entry out
            cases hf.symm.trans hf'
            have hnot (f' : Frame) (hf' : s.frame = some f') : f'.pc ≠ .inListener := by
              cases hf.symm.trans hf'
              rw [hpc]
              decide
            have hidle : s.calls .loop = none := by
              by_contra hsome
              obtain ⟨call, hc⟩ := Option.ne_none_iff_exists'.mp hsome
              obtain ⟨f', hf', hpc'⟩ := I.loop call hc
              exact hnot f' hf' hpc'
            exact .inr ⟨loop_idle hidle hnot hs, by rw [hn, hfq, update_self]⟩
        · obtain ⟨hidle, hn⟩ := hend.resolve_left hx
          refine .inr ⟨loop_idle hidle (notIn (Bool.eq_false_iff.mpr hx) rfl) hs, ?_⟩
          cases map_step v hs with
          | same hn' | javaPut _ _ _ _ _ _ hn' | remove _ _ hn' => rwa [hn']
          | nativePut hc hpc => exact (noPut hidle rfl hc (by rw [hpc]; rfl)).elim
          | erase _ _ hn' =>
              rw [hn', Function.update_apply]
              split
              · rfl
              · exact hn
          | null _ _ hnull =>
              rw [hcr] at hnull
              cases hnull
  | @native k x sp hsp hne hst hk hlost =>
      refine .native hsp hne hst hk fun h => ?_
      rcases native_back v hs h with h | hp
      · exact hlost h
      · -- an entry comes back only for a child that is being started
        exact hst (hp.not_native (I.later _ sp hsp))
  | @java k x sp hsp hne hst hk hlost =>
      refine .java hsp hne hst hk fun h => ?_
      rcases java_back v hs h with h | hp
      · exact hlost h
      · exact hp.not_java (I.later _ sp hsp) hst

/-- Nothing is put right at the end of the step. -/
theorem Broken.not_kept (b : Broken s₀ s c q) (v : Inv s) (hf : s.frame = none) :
    ¬ KeptRight s₀ s c := by
  intro g
  have hx (before : JniPc → Bool) : ¬ exiting s c before = true := by simp [exiting, hf]
  cases b with
  | threw _ _ hj hxc => exact g.gone.2 q _ hj hxc
  | stolen hd hsp hst hq hcalls hend =>
      obtain ⟨hidle, hn⟩ := hend.resolve_left (hx _)
      rcases v.calls.registered _ _ hsp with ⟨t, call, hc, hch⟩ | hjava | ⟨hnew, -⟩
      · rw [hcalls t call hc hch, hidle] at hc
        cases hc
      · obtain ⟨x, hx, -⟩ := (g.started _ _ hd hsp hjava).native
        rw [hq, hn] at hx
        cases hx
      · exact hst hnew
  | native hsp hne hst hk hlost => exact hlost ((g.native _ _ _ hsp hne hst).mpr hk)
  | java hsp hne hst hk hlost => exact hlost ((g.java _ _ _ hsp hne hst).mpr hk)

/-- A call of the loop thread comes from inside the listener. -/
theorem Inside.exiting (I : Inside s₀ s c q) {call : Call} (hc : s.calls .loop = some call)
    {before : JniPc → Bool} (hb : before .inListener = true) : exiting s c before = true := by
  obtain ⟨f, hf, hpc⟩ := I.loop call hc
  obtain ⟨hfc, -, hm⟩ := I.frame f hf
  rw [exiting_eq hf hfc hm, hpc, hb]

theorem nativePut_step {t : Tid} {mem : Uninit} {now : Date} {call : Call} {sp : Spawn}
    (hc : s.calls t = some call) (hpc : call.pc = .spawning d) (hsp : s.objs d = some sp)
    (hret : sp.child.pc = .returned 0) (hs : s.step (.step t mem now) = some (s', os)) :
    s'.nativeList = update s.nativeList sp.child.obj.getPid (some (some ⟨sp.child.obj, d⟩)) ∧
      s'.objs = update s.objs d (some { sp with stage := .native }) ∧ s'.frame = s.frame := by
  simp only [State.step, (step_inv hs).1, hc, State.stepCall, hpc, hsp, hret] at hs
  cases hs
  exact ⟨rfl, rfl, rfl⟩

theorem javaPut_step {t : Tid} {mem : Uninit} {now : Date} {call : Call} {pid : Int}
    (hc : s.calls t = some call) (hpc : call.pc = .javaPut d pid) (hpos : 0 < pid)
    (hs : s.step (.step t mem now) = some (s', os)) :
    s'.javaList = update s.javaList pid (some ⟨call.puppy, d⟩) := by
  have hst := (step_inv hs).2
  cases hst with
  | javaPut hc' hpc' =>
      cases hc.symm.trans hc'
      cases hpc.symm.trans hpc'
      rfl
  | javaThrow hc' hpc' hneg =>
      cases hc.symm.trans hc'
      cases hpc.symm.trans hpc'
      omega
  | killMove hc' hm =>
      cases hc.symm.trans hc'
      rw [hpc] at hm
      cases hm
  | setTimeout hc' hpc' | create hc' hpc' | nativePut hc' hpc' | spawnFailed hc' hpc'
  | setPid hc' hpc' | setStartedAt hc' hpc' | killDeref hc' hpc' | nullDeref hc' hpc' =>
      cases hc.symm.trans hc'
      cases hpc.symm.trans hpc'

/-- The listener throws: `remove` is skipped. -/
theorem throw_breaks (ph : Phase s c q) (hs : Step s .listenerThrows s' os) :
    Broken s₀ s' c q := by
  cases hs with
  | @listenerThrows f hf hpc hidle =>
      obtain ⟨hfc, -, hm⟩ := ph.frame f hf
      obtain ⟨x, hx, hxc⟩ := ph.java.mpr ((ph.exiting hf).trans (by rw [hpc]; rfl))
      refine .threw hidle ?_ hx hxc
      rw [exiting_eq (f := { f with pc := f.thrown }) rfl hfc hm]
      simp [Frame.thrown, hm, JniPc.beforeRemove]

/-- A child is put in the native map under a key: the one of `c`, which will be erased, or that of
another child, whose entry is lost. -/
theorem nativePut_breaks (I : Inside s₀ s c q) (ph : Phase s c q) (v₀ : Inv s₀) {mem : Uninit}
    {now : Date} {call : Call} {sp : Spawn} (hc : s.calls .loop = some call)
    (hpc : call.pc = .spawning d) (hsp : s.objs d = some sp) (hret : sp.child.pc = .returned 0)
    (hkey : s.nativeList sp.child.obj.process.pid ≠ none)
    (hs : s.step (.step .loop mem now) = some (s', os)) : Broken s₀ s' c q := by
  have v := I.inv
  obtain ⟨hcr, hst⟩ := step_inv hs
  have hch : call.pc.child? = some d := by rw [hpc]; rfl
  have hd := I.calls call d hc hch
  obtain ⟨-, hnew⟩ := v.calls.spawning hc hpc hsp
  obtain ⟨hb, hpid⟩ := (v.objects.reached d sp hsp).1.started hret
  obtain ⟨hn, ho, hf⟩ := nativePut_step hc hpc hsp hret hs
  obtain ⟨spc, hspc, -, -, hq⟩ := ph.obj
  obtain ⟨y, hy⟩ := Option.ne_none_iff_exists'.mp hkey
  cases y with
  | none =>
      rw [v.entries.null _ hy] at hcr
      cases hcr
  | some x =>
      obtain ⟨spx, hspx, hstx, hbx, hpx, -⟩ := v.entries.native _ x hy
      by_cases hxc : x.child = c
      · rw [hxc] at hspx
        cases hspc.symm.trans hspx
        have hsp' : s'.objs d = some { sp with stage := .native } := by rw [ho, update_self]
        refine .stolen hd hsp' (by simp) (hpx.symm.trans hq) (fun t call' hc' hch' => ?_) (.inl ?_)
        · -- the call that works on the child is the one that has put it in
          rcases child_back hst hc' hch' with rfl | ⟨call₀, hc₀, hch₀⟩
          · exact absurd (v.objects.lt hsp) (lt_irrefl _)
          · exact v.calls.one _ _ _ _ d hc₀ hc hch₀ hch
        · rw [Manager.exiting, hf]
          exact I.exiting hc rfl
      · rcases I.native hcr _ x hy with hnx | hx₀
        · -- two children made inside the step have different pids
          have hdx := I.one hnx hd hspx hsp hbx hb hpx
          rw [hdx] at hspx
          cases hsp.symm.trans hspx
          exact absurd hnew hstx
        · obtain ⟨sp₀, hsp₀, hst₀, -⟩ := v₀.entries.native _ x hx₀
          refine .native hsp₀ hxc hst₀ hx₀ ?_
          rw [hn, DoryProcessSpawn.getPid, hpid, update_self]
          rintro ⟨⟩
          exact absurd (v₀.objects.lt hsp₀) (Nat.not_lt.mpr hd)

/-- A child is put in the Java map under a key, which is not that of `c` when the native map did not
have it. -/
theorem javaPut_breaks (I : Inside s₀ s c q) (ph : Phase s c q) (o : Others s₀ s c)
    (hc₀ : c < s₀.next) (v₀ : Inv s₀) {mem : Uninit} {now : Date} {call : Call} {pid : Int}
    (hc : s.calls .loop = some call) (hpc : call.pc = .javaPut d pid) (hpos : 0 < pid)
    (hkey : s.javaList pid ≠ none) (hs : s.step (.step .loop mem now) = some (s', os)) :
    Broken s₀ s' c q := by
  have v := I.inv
  obtain ⟨hcr, -⟩ := step_inv hs
  have hch : call.pc.child? = some d := by rw [hpc]; rfl
  have hd := I.calls call d hc hch
  obtain ⟨sp, hsp, -⟩ := v.calls.works .loop call d hc hch
  obtain ⟨-, hnative, hret, hpid⟩ := v.calls.javaPut hc hpc hsp hpos
  have hb := ((v.objects.reached d sp hsp).1.started hret).1
  have hj := javaPut_step hc hpc hpos hs
  obtain ⟨spc, hspc, -, -, hq⟩ := ph.obj
  obtain ⟨x, hx⟩ := Option.ne_none_iff_exists'.mp hkey
  obtain ⟨spx, hspx, hstx, -, hbx, hpx⟩ := v.entries.java _ x hx
  by_cases hxc : x.child = c
  · -- the native map has the child under the pid, and has `c` under it
    rw [hxc] at hspx
    cases hspc.symm.trans hspx
    obtain ⟨y, hy, hyd⟩ := o.nativeNew d sp hd hsp (by rw [hnative]; decide)
    obtain ⟨z, hz, hzc⟩ := ph.native.mpr (I.exiting hc rfl)
    rw [hpid, ← hpx, hq, hz] at hy
    cases hy
    exact absurd (hzc.symm.trans hyd) (hc₀.trans_le hd).ne
  · rcases I.java hcr _ x hx with hnx | hx₀
    · have hdx := I.one hnx hd hspx hsp hbx hb (hpx.trans hpid.symm)
      rw [hdx] at hspx
      cases hsp.symm.trans hspx
      cases hnative.symm.trans hstx
    · obtain ⟨sp₀, hsp₀, hst₀, -⟩ := v₀.entries.java _ x hx₀
      refine .java hsp₀ hxc hst₀ hx₀ ?_
      rw [hj, update_self]
      rintro ⟨⟩
      exact absurd (v₀.objects.lt hsp₀) (Nat.not_lt.mpr hd)

/-- A step that throws, or puts a child under a key, breaks something for good. -/
theorem step_breaks (I : Inside s₀ s c q) (ph : Phase s c q) (o : Others s₀ s c)
    (hc₀ : c < s₀.next) (v₀ : Inv s₀) (hby : ByLoop s l) (hC : ¬ Keeps s l)
    (hs : s.step l = some (s', os)) : Broken s₀ s' c q := by
  by_contra hno
  refine hC ⟨?_, ⟨?_, ?_⟩⟩
  · rintro rfl
    exact hno (throw_breaks ph (step_inv hs).2)
  · rintro t mem now call d sp rfl hc hpc hsp hret
    obtain rfl := hby t mem now call d rfl hc (by rw [hpc]; rfl)
    by_contra hkey
    exact hno (nativePut_breaks I ph v₀ hc hpc hsp hret hkey hs)
  · rintro t mem now call d pid rfl hc hpc hpos
    obtain rfl := hby t mem now call d rfl hc (by rw [hpc]; rfl)
    by_contra hkey
    exact hno (javaPut_breaks I ph o hc₀ v₀ hc hpc hpos hkey hs)

theorem Phase.inside (ph : Phase s₁ c q) (o : Others s₀ s₁ c) (v₁ : Inv s₁)
    (hn : s₁.nativeList = s₀.nativeList) (hj : s₁.javaList = s₀.javaList)
    (hnext : s₁.next = s₀.next) (hidle : s₁.calls .loop = none) : Inside s₀ s₁ c q := by
  refine ⟨v₁, ph.frame, o.next, o.later, fun call hc => ?_, fun call d hc => ?_,
    fun d sp hd h => ?_, fun _ k x h => .inr (hn ▸ h), fun _ k x h => .inr (hj ▸ h)⟩
  · rw [hidle] at hc
    cases hc
  · rw [hidle] at hc
    cases hc
  · exact absurd (v₁.objects.lt h) (Nat.not_lt.mpr (hnext ▸ hd))

/-- The steps keep everything so far, or something is broken. -/
theorem run_broken (I : Inside s₀ s₁ c q) (ph : Phase s₁ c q) (o : Others s₀ s₁ c)
    (hc₀ : c < s₀.next) (v₀ : Inv s₀)
    (r : machine.RunWhere (fun s l => s.frame.isSome = true ∧ ByLoop s l) s₁ h s) :
    Inside s₀ s c q ∧ (s.crashed = false →
      machine.RunWhere (fun s l => s.frame.isSome = true ∧ Keeps s l) s₁ h s ∨
        Broken s₀ s c q) := by
  refine r.inv (fun h s => Inside s₀ s c q ∧ (s.crashed = false →
    machine.RunWhere (fun s l => s.frame.isSome = true ∧ Keeps s l) s₁ h s ∨
      Broken s₀ s c q)) ⟨I, fun _ => .inl .nil⟩ ?_
  rintro h s s' l os - ⟨hin, hby⟩ hs ⟨I', ih⟩
  obtain ⟨hcr, hst⟩ := step_inv hs
  refine ⟨step_inside I' hin hby hs, fun hcr' => ?_⟩
  rcases ih hcr with r | b
  · by_cases hC : Keeps s l
    · exact .inl (r.snoc ⟨hin, hC⟩ hs)
    · obtain ⟨ph', o'⟩ := (run_keeps I.inv ph o hc₀ r).2 hcr
      exact .inr (step_breaks I' ph' o' hc₀ v₀ hby hC hs)
  · exact .inr (step_broken b I' hin hby hcr' hst)

/-- **The exit step keeps the registries right when no key is put again and the listener returns.**
From any state in which `c` is registered under the pid `q`, let a callback of `c` raise its exit
event, and let anything happen until the callback is over.  If the listener has returned normally
and no child was put in a map under a key of it, then `c` is in neither map, the children made in
between are in both, and the entries of the others are the same; if no other thread has registered
a child, these hold in no other case. -/
theorem exit_step_iff {puppies : PuppyId → List (Option JString) × StringTable}
    {h₀ : History Label Event} (r₀ : machine.Run (.init puppies) h₀ s₀)
    (hreg : RegisteredAt s₀ c q) {i : Input} (hs : s₀.step (.callback c i) = some (s₁, os))
    (hexit : s₁.frame.any (·.method = .exit))
    (r : machine.RunWhere (fun s _ => s.frame.isSome = true) s₁ h s) (hover : s.frame = none) :
    (machine.RunWhere Keeps s₁ h s → KeptRight s₀ s c) ∧
      (machine.RunWhere ByLoop s₁ h s →
        (KeptRight s₀ s c ↔ machine.RunWhere Keeps s₁ h s)) := by
  have v₀ := run_inv r₀
  have v₁ := step_keeps_inv v₀ hs
  obtain ⟨hc₀, ph, o⟩ := exit_begins v₀ hreg hs hexit
  have hf₁ : s₁.frame.isSome = true := by
    obtain ⟨f, hf, -⟩ := (Option.any_eq_true _ _).mp hexit
    rw [hf]
    rfl
  have hcr := run_ended hf₁ r hover
  have enough (k : machine.RunWhere Keeps s₁ h s) : KeptRight s₀ s c := by
    obtain ⟨v, hkept⟩ := run_keeps v₁ ph o hc₀ (r.and k)
    obtain ⟨ph', o'⟩ := hkept hcr
    exact kept_right v ph' o' hover
  refine ⟨enough, fun hby => ⟨fun hright => ?_, enough⟩⟩
  have I : Inside s₀ s₁ c q := by
    have hidle : s₀.calls .loop = none := by
      by_contra hsome
      obtain ⟨call, hc⟩ := Option.ne_none_iff_exists'.mp hsome
      obtain ⟨f, hf, -⟩ := run_loopCalls r₀ call hc
      cases (step_inv hs).2 with
      | callback hnone | callbackInvoke hnone =>
          rw [hnone] at hf
          cases hf
    cases (step_inv hs).2 with
    | callback | callbackInvoke => exact ph.inside o v₁ rfl rfl rfl hidle
  obtain ⟨I', hcase⟩ := run_broken I ph o hc₀ v₀ (r.and hby)
  rcases hcase hcr with k | b
  · exact k.mono fun _ _ hk => hk.2
  · exact absurd hright (b.not_kept I'.inv hover)

/-- The steps that keep the registries right, as far as the place in the code tells. -/
def keeps (s : State) : Label → Bool
  | .listenerThrows => false
  | .step t _ _ => (s.calls t).all fun call =>
      match call.pc with
      | .spawning d => (s.objs d).all fun sp =>
          (s.nativeList sp.child.obj.process.pid).isNone
      | .javaPut _ pid => (s.javaList pid).isNone
      | _ => true
  | _ => true

theorem keeps_keeps (hl : keeps s l = true) : Keeps s l := by
  refine ⟨?_, ⟨?_, ?_⟩⟩
  · rintro rfl
    cases hl
  · rintro t mem now call d sp rfl hc hpc hsp -
    simpa [keeps, hc, hpc, hsp] using hl
  · rintro t mem now call d pid rfl hc hpc -
    simpa [keeps, hc, hpc] using hl

/-- A `DoryProcess` with an exit listener, started under the pid 7, whose stderr has ended. -/
def untilExit : List Label :=
  .set 0 (.listener .exit (some 5)) :: startsWith (.caller 0) 0 7 ++
    [.callback 0 (.stderrCb UV_EOF [])]

/-- The exit callback after its beginning, with a listener that starts the `DoryProcess` again. -/
def restarts (pid : Pid) : List Label :=
  [.jni 0, .jni 0, .jni 0, .jni 0, .jni 0, .jni 0] ++ startsWith .loop 0 pid ++
    [.listenerReturns, .jni 0, .jni 0, .jni 0]

theorem exit_step_iff_example : ∃ h₀ s₀ s₁ os h s, machine.Run (.init examplePuppies) h₀ s₀ ∧
    h₀.inputs = untilExit ∧ s₀.step (.callback 0 (.exitCb 0 0)) = some (s₁, os) ∧
    machine.Run s₁ h s ∧ h.inputs = restarts 8 ∧ s.frame = none ∧ KeptRight s₀ s 0 := by
  have kept {h₀ h : History Label Event} {s₀ s₁ s : State} {os : List Event}
      (r₀ : machine.Run (.init examplePuppies) h₀ s₀) (hin : h₀.inputs = untilExit)
      (hreg : RegisteredAt s₀ 0 7) (hs : s₀.step (.callback 0 (.exitCb 0 0)) = some (s₁, os))
      (hexit : s₁.frame.any (·.method = .exit))
      (r : machine.RunWhere (fun s l => (s.frame.isSome && keeps s l) = true) s₁ h s)
      (hin' : h.inputs = restarts 8) (hover : s.frame = none) :
      ∃ h₀ s₀ s₁ os h s, machine.Run (.init examplePuppies) h₀ s₀ ∧
        h₀.inputs = untilExit ∧ s₀.step (.callback 0 (.exitCb 0 0)) = some (s₁, os) ∧
        machine.Run s₁ h s ∧ h.inputs = restarts 8 ∧ s.frame = none ∧ KeptRight s₀ s 0 := by
    have r' := r.mono fun _ _ hl => Bool.and_eq_true_iff.mp hl
    exact ⟨h₀, s₀, s₁, os, h, s, r₀, hin, hs, r.run, hin', hover,
      (exit_step_iff r₀ hreg hs hexit (r'.mono fun _ _ hl => hl.1) hover).1
        (r'.mono fun _ _ hl => keeps_keeps hl.2)⟩
  exact kept (Machine.exec_run untilExit rfl) rfl ⟨⟨_, rfl, rfl⟩, ⟨_, rfl, rfl⟩⟩ rfl rfl
    (Machine.execWhere_run (restarts 8) rfl) rfl rfl

/-- **A restart from the exit listener, under the same pid.**  The pid is free when the listener
runs, the new child gets it, and its entries are taken out with those of the old one. -/
theorem restart_lost : ∃ h₀ s₀ s₁ os h s, machine.Run (.init examplePuppies) h₀ s₀ ∧
    h₀.inputs = untilExit ∧ RegisteredAt s₀ 0 7 ∧
    s₀.step (.callback 0 (.exitCb 0 0)) = some (s₁, os) ∧ machine.Run s₁ h s ∧
    h.inputs = restarts 7 ∧ s.frame = none ∧ .returned .loop 0 7 ∈ h.outputs ∧
    s.nativeList 7 = none ∧ ¬ KeptRight s₀ s 0 := by
  refine ⟨_, _, _, _, _, _, Machine.exec_run untilExit rfl, rfl, ⟨⟨_, rfl, rfl⟩, ⟨_, rfl, rfl⟩⟩,
    rfl, Machine.exec_run (restarts 7) rfl, rfl, rfl, List.mem_of_elem_eq_true rfl, rfl,
    fun g => ?_⟩
  obtain ⟨x, hx, -⟩ := (g.started 1 _ le_rfl rfl rfl).native
  cases hx

end Dorypuppy.Manager
