import Mathlib.Data.List.Range
import Dorypuppy.Manager.Emitted
import Dorypuppy.Manager.Signals

/-!
# Manager — the two registries

A thread puts its child in the native map and then in the Java map; the exit callback takes it out
of the Java map and then out of the native one.  Neither looks whether the other has been there
(`exit_before_put`).

`registries_agree`: when pids are not reused, listeners return normally, and the exit callback of
each child reaches `processList.remove` after the `put` of the child, then whenever no thread is
inside `puppySpawn` or `kill` and no callback is running, both maps have the pids of the children
that were started and whose exit event has not been emitted.
-/

namespace Dorypuppy.Manager

open Child (Reached born done)
open Support (Machine History)
open Function (update update_self update_of_ne)

variable {s s' : State} {l : Label} {os : List Event} {c : ObjId}

/-! ### Pids that are not reused -/

/-- `uv_spawn` takes a pid that no earlier child had. -/
def pidFresh (s : State) : Label → Bool
  | .spawn _ (.uvSpawn (.ok pid)) =>
      (List.range s.next).all fun c => (s.objs c).all fun sp =>
        !(born sp.child && sp.child.obj.process.pid = (pid : Int))
  | _ => true

/-- The listener does not throw. -/
def Label.returns : Label → Bool
  | .listenerThrows => false
  | _ => true

/-- A step that reuses no pid, and in which no listener throws. -/
def orderly (s : State) (l : Label) : Bool := pidFresh s l && l.returns

theorem orderly_fresh (h : orderly s l = true) : pidFresh s l = true :=
  (Bool.and_eq_true_iff.mp h).1

/-- A child with a pid has the pid for itself, and the listener a callback is about to call is
there. -/
structure Distinct (s : State) : Prop where
  one : ∀ c c' sp sp', s.objs c = some sp → s.objs c' = some sp' → born sp.child = true →
    born sp'.child = true → sp.child.obj.process.pid = sp'.child.obj.process.pid → c = c'
  listening : ∀ f, s.frame = some f → f.pc = .call → ∃ e, s.javaList f.pid = some e ∧
    ((s.puppies e.puppy).listenerOf f.method).isSome

theorem fresh_spawn {t : Tid} {pid : Pid} (hC : pidFresh s (.spawn t (.uvSpawn (.ok pid))) = true)
    (ok : Objects s) {sp : Spawn} (hsp : s.objs c = some sp) (hb : born sp.child = true) :
    sp.child.obj.process.pid ≠ pid := by
  intro hpid
  have := List.all_eq_true.mp hC c (List.mem_range.mpr (ok.lt hsp))
  simp [hsp, hb, hpid] at this

/-- A child about to be put in the Java map is not in it. -/
theorem Distinct.notPut (d : Distinct s) (v : Inv s) {t : Tid} {call : Call} {pid : Int}
    {sp : Spawn} (hc : s.calls t = some call) (hpc : call.pc = .javaPut c pid)
    (hsp : s.objs c = some sp) (hpos : 0 < pid) : s.javaList pid = none := by
  obtain ⟨-, hst, hret, hpid⟩ := v.calls.javaPut hc hpc hsp hpos
  by_contra hj
  obtain ⟨e, he⟩ := Option.ne_none_iff_exists'.mp hj
  obtain ⟨sp', hsp', hst', -, hb', hp'⟩ := v.entries.java pid e he
  have hb := ((v.objects.reached c sp hsp).1.started hret).1
  have := d.one _ _ _ _ hsp' hsp hb' hb (hp'.trans hpid.symm)
  subst this
  cases hsp.symm.trans hsp'
  rw [hst] at hst'
  cases hst'

/-- A listener that is set stays set. -/
theorem listener_stays (hs : Step s l s' os) {p : PuppyId} {k : JniCallback}
    (h : ((s.puppies p).listenerOf k).isSome) : ((s'.puppies p).listenerOf k).isSome := by
  have written {p' : PuppyId} {w : Write} :
      ((update s.puppies p' ((s.puppies p').write w) p).listenerOf k).isSome := by
    by_cases hp : p = p'
    · subst hp
      rwa [update_self, DoryProcess.write_listenerOf]
    · rwa [update_of_ne hp]
  cases hs with
  | @set p' x =>
      dsimp only
      by_cases hp : p = p'
      · subst hp
        rw [update_self]
        exact DoryProcess.apply_listenerOf _ x h
      · rwa [update_of_ne hp]
  | setTimeout | setPid | setStartedAt | write => exact written
  | _ => exact h

theorem step_distinct (v : Inv s) (d : Distinct s) (hC : pidFresh s l = true)
    (hs : Step s l s' os) : Distinct s' := by
  constructor
  · intro c c' sp sp' h h' hb hb' hp
    rcases born_back v.objects hs h hb with ⟨sp₀, h₀, hb₀, hp₀⟩ | ⟨t, pid, call, rfl, hc, hpc, hp₀⟩
    · rcases born_back v.objects hs h' hb' with ⟨sp₁, h₁, hb₁, hp₁⟩ | ⟨t, pid, call, rfl, -, -, hp₁⟩
      · exact d.one _ _ _ _ h₀ h₁ hb₀ hb₁ (by rw [hp₀, hp₁, hp])
      · exact absurd (hp₀.trans (hp.trans hp₁)) (fresh_spawn hC v.objects h₀ hb₀)
    · rcases born_back v.objects hs h' hb' with
        ⟨sp₁, h₁, hb₁, hp₁⟩ | ⟨t', pid', call', hl, hc', hpc', -⟩
      · exact absurd (hp₁.trans (hp.symm.trans hp₀)) (fresh_spawn hC v.objects h₁ hb₁)
      · cases hl
        cases hc.symm.trans hc'
        cases hpc.symm.trans hpc'
        rfl
  · intro f hf hpc
    -- the entry and the listener of a callback that stays where it is
    have stay (hf : s.frame = some f) (hj : s'.javaList = s.javaList) :
        ∃ e, s'.javaList f.pid = some e ∧
          ((s'.puppies e.puppy).listenerOf f.method).isSome := by
      obtain ⟨e, he, hlis⟩ := d.listening f hf hpc
      exact ⟨e, by rw [hj, he], listener_stays hs hlis⟩
    cases hs with
    | @javaPut t mem now call c pid sp hc hpc' hsp hpos =>
        obtain ⟨e, he, hlis⟩ := d.listening f hf hpc
        refine ⟨e, ?_, hlis⟩
        rw [← he]
        refine update_of_ne ?_ _ _
        rintro rfl
        rw [d.notPut v hc hpc' hsp hpos] at he
        cases he
    | callbackInvoke => cases hf; cases hpc
    | callback hnone =>
        rw [show s.frame = some f from hf] at hnone
        cases hnone
    | @jniMove now f₀ pc' hf₀ hm =>
        cases hf
        dsimp only at hpc
        subst hpc
        generalize hpc₀ : f₀.pc = pc₀ at hm
        generalize hpc' : JniPc.call = pc' at hm
        cases hm with
        | contains =>
            unfold Frame.found at hpc'
            split at hpc' <;> cases hpc'
        | absent | noListener =>
            have := f₀.after_pc.2
            rw [← hpc'] at this
            cases this
        | listener he hlis => exact ⟨_, he, hlis⟩
    | write hf₀ hw =>
        cases hf
        rcases (Frame.write_pc hw).2.2 with h | h | h
        all_goals
          dsimp only at hpc
          rw [h] at hpc
          cases hpc
    | listener | remove | erase | tail => cases hf; try cases hpc
    | nullPointer | listenerThrows =>
        cases hf
        have := (Frame.thrown_pc _).2.symm.trans (congrArg JniPc.hasFound hpc)
        cases this
    | listenerReturns =>
        cases hf
        have := (Frame.after_pc _).2.symm.trans (congrArg JniPc.hasFound hpc)
        cases this
    | _ => exact stay hf rfl

theorem run_distinct {puppies : PuppyId → List (Option JString) × StringTable}
    {h : History Label Event}
    (r : machine.RunWhere (fun s l => pidFresh s l = true) (.init puppies) h s) : Distinct s := by
  refine r.inv (fun _ s => Distinct s) ⟨?_, ?_⟩ ?_
  · intro c c' sp sp' h
    cases h
  · intro f hf
    cases hf
  · intro h s s' l os r hC hs d
    exact step_distinct (run_inv r) d hC (step_inv hs).2

/-- No method of `DoryPuppy` throws. -/
theorem Distinct.not_nullPointer (d : Distinct s) (v : Inv s) {f : Frame} (hf : s.frame = some f)
    (hpc : f.pc = .setCode ∨ f.pc = .setSignal ∨ f.pc = .setExitedAt ∨ f.pc = .nullCheck ∨
      f.pc = .call)
    (hnone : ∀ e, s.javaList f.pid = some e →
      f.pc = .call ∧ (s.puppies e.puppy).listenerOf f.method = none) : False := by
  have hfound : f.pc.hasFound = true := by rcases hpc with h | h | h | h | h <;> rw [h] <;> rfl
  obtain ⟨e, he⟩ := Option.isSome_iff_exists.mp (v.frames.found f hf hfound)
  obtain ⟨hcall, hlis⟩ := hnone e he
  obtain ⟨e', he', hlis'⟩ := d.listening f hf hcall
  cases he.symm.trans he'
  rw [hlis] at hlis'
  cases hlis'

/-! ### In which registry a child is -/

/-- The places of an exit callback before `processList.erase`, and at it. -/
def JniPc.beforeErase (pc : JniPc) : Bool := pc ≠ .tail

/-- The places of an exit callback before `processList.remove`, and at it. -/
def JniPc.beforeRemove (pc : JniPc) : Bool := pc ≠ .erase && pc ≠ .tail

theorem JniPc.beforeRemove_of_found {pc : JniPc} (h : pc.hasFound = true) :
    pc.beforeRemove = true := by
  cases pc <;> first | rfl | cases h

theorem JniPc.beforeErase_of_remove {pc : JniPc} (h : pc.beforeRemove = true) :
    pc.beforeErase = true := by
  cases pc <;> first | rfl | cases h

/-- The exit callback of a child runs, and is at such a place. -/
def exiting (s : State) (c : ObjId) (before : JniPc → Bool) : Bool :=
  s.frame.any fun f => f.child = c && f.method = .exit && before f.pc

theorem exiting_iff {before : JniPc → Bool} : exiting s c before = true ↔
    ∃ f, s.frame = some f ∧ f.child = c ∧ f.method = .exit ∧ before f.pc = true := by
  cases hf : s.frame <;> simp [exiting, hf, and_assoc]

theorem exiting_eq {f : Frame} {before : JniPc → Bool} (hf : s.frame = some f)
    (hc : f.child = c) (hm : f.method = .exit) : exiting s c before = before f.pc := by
  simp [exiting, hf, hc, hm]

/-- The exit callback of a child before `remove` was there, or has just been called. -/
theorem exiting_back (v : Inv s) (hs : Step s l s' os)
    (hx : exiting s' c JniPc.beforeRemove = true) :
    exiting s c JniPc.beforeRemove = true ∨ ∃ sp, s.objs c = some sp ∧ done sp.child = false := by
  obtain ⟨f, hf, rfl, hm, hb⟩ := exiting_iff.mp hx
  have old {f₀ : Frame} (hf₀ : s.frame = some f₀) (hc : f₀.child = f.child)
      (hm₀ : f₀.method = .exit) (hb₀ : f₀.pc.beforeRemove = true) :
      exiting s f.child JniPc.beforeRemove = true := exiting_iff.mpr ⟨f₀, hf₀, hc, hm₀, hb₀⟩
  cases hs with
  | @callbackInvoke c i sp ch as k args pid hnone hsp hst hinv =>
      cases hf
      rw [invoked_eq (v.objects.reached c sp hsp).2 hst, Option.map_eq_some_iff] at hinv
      obtain ⟨⟨k, args⟩, hk, ⟨⟩⟩ := hinv
      cases hm
      exact .inr ⟨sp, hsp, done_raised (v.objects.reached c sp hsp).1 hst hk⟩
  | @jniMove now f₀ pc' hf₀ hmove =>
      cases hf
      refine .inl (old hf₀ rfl hm ?_)
      generalize f₀.pc = pc at hmove
      cases hmove <;> rfl
  | write hf₀ hw =>
      cases hf
      exact .inl (old hf₀ rfl hm (JniPc.beforeRemove_of_found (Frame.write_pc hw).2.1))
  | listener hf₀ hpc =>
      cases hf
      exact .inl (old hf₀ rfl hm (by rw [hpc]; rfl))
  | listenerReturns hf₀ hpc | listenerThrows hf₀ hpc =>
      cases hf
      exact .inl (old hf₀ rfl hm (by rw [hpc]; rfl))
  | nullPointer hf₀ hpc =>
      cases hf
      exact .inl (old hf₀ rfl hm (by rcases hpc with h | h | h | h | h <;> rw [h] <;> rfl))
  | remove => cases hf; cases hb
  | erase => cases hf; cases hb
  | tail => cases hf
  | _ => exact .inl (old hf rfl hm hb)

/-- The child is in the native map. -/
def inNative (s : State) (c : ObjId) (sp : Spawn) : Bool :=
  sp.stage ≠ .new && (!done sp.child || exiting s c JniPc.beforeErase)

/-- The child is in the Java map. -/
def inJava (s : State) (c : ObjId) (sp : Spawn) : Bool :=
  sp.stage = .java && (!done sp.child || exiting s c JniPc.beforeRemove)

/-- The maps hold a child from its insertion to the end of its exit callback; the exit callback
waits for the `put`. -/
structure Registered (s : State) (c : ObjId) : Prop where
  native : ∀ sp, s.objs c = some sp → born sp.child = true →
    ((∃ e, s.nativeList sp.child.obj.process.pid = some (some e)) ↔ inNative s c sp = true)
  java : ∀ sp, s.objs c = some sp → born sp.child = true →
    ((∃ e, s.javaList sp.child.obj.process.pid = some e) ↔ inJava s c sp = true)
  late : ∀ sp, s.objs c = some sp → done sp.child = true →
    sp.stage = .java ∨ exiting s c JniPc.beforeRemove = true

/-- The child is there as before, with its entries, and its exit callback is where it was. -/
theorem Registered.keep (g : Registered s c)
    (hobj : ∀ sp', s'.objs c = some sp' → ∃ sp, s.objs c = some sp ∧ sp'.stage = sp.stage ∧
      done sp'.child = done sp.child ∧ (born sp'.child = true → born sp.child = true ∧
        sp'.child.obj.process.pid = sp.child.obj.process.pid))
    (hx : exiting s' c JniPc.beforeErase = exiting s c JniPc.beforeErase ∧
      exiting s' c JniPc.beforeRemove = exiting s c JniPc.beforeRemove)
    (hn : ∀ sp, s.objs c = some sp → born sp.child = true →
      ((∃ e, s'.nativeList sp.child.obj.process.pid = some (some e)) ↔
        ∃ e, s.nativeList sp.child.obj.process.pid = some (some e)))
    (hj : ∀ sp, s.objs c = some sp → born sp.child = true →
      ((∃ e, s'.javaList sp.child.obj.process.pid = some e) ↔
        ∃ e, s.javaList sp.child.obj.process.pid = some e)) : Registered s' c := by
  refine ⟨fun sp' hsp' hb' => ?_, fun sp' hsp' hb' => ?_, fun sp' hsp' hd' => ?_⟩
  all_goals
    obtain ⟨sp, hsp, hst, hd, hborn⟩ := hobj sp' hsp'
  · obtain ⟨hb, hp⟩ := hborn hb'
    rw [hp, hn sp hsp hb, g.native sp hsp hb, inNative, inNative, hst, hd, hx.1]
  · obtain ⟨hb, hp⟩ := hborn hb'
    rw [hp, hj sp hsp hb, g.java sp hsp hb, inJava, inJava, hst, hd, hx.2]
  · rw [hst, hx.2]
    exact g.late sp hsp (hd ▸ hd')

/-- The callback goes on, and neither leaves the maps alone for good nor has done so. -/
theorem exiting_moved {f : Frame} {pc : JniPc} {before : JniPc → Bool} (hf : s.frame = some f)
    (hf' : s'.frame = some { f with pc := pc })
    (h : f.method = .exit → before pc = before f.pc) :
    exiting s' c before = exiting s c before := by
  simp only [exiting, hf, hf', Option.any_some]
  by_cases hm : f.method = .exit
  · rw [h hm]
  · simp [hm]

/-- What a callback does up to `remove`. -/
theorem Registered.moved (g : Registered s c) {f : Frame} {pc : JniPc} (hf : s.frame = some f)
    (hf' : s'.frame = some { f with pc := pc }) (ho : s'.objs = s.objs)
    (hn : s'.nativeList = s.nativeList) (hj : s'.javaList = s.javaList)
    (hpc : f.pc ≠ .erase ∧ f.pc ≠ .tail) (hpc' : f.method = .exit → pc ≠ .erase ∧ pc ≠ .tail) :
    Registered s' c := by
  refine g.keep (fun sp' hsp' => ?_) ⟨exiting_moved hf hf' fun hm => ?_,
    exiting_moved hf hf' fun hm => ?_⟩ (fun _ _ _ => by rw [hn]) fun _ _ _ => by rw [hj]
  · rw [ho] at hsp'
    exact ⟨sp', hsp', rfl, rfl, fun h => ⟨h, rfl⟩⟩
  · simp [JniPc.beforeErase, hpc, hpc' hm]
  · simp [JniPc.beforeRemove, hpc, hpc' hm]

/-- What no callback and no map takes part in. -/
theorem Registered.stay (g : Registered s c)
    (hobj : ∀ sp', s'.objs c = some sp' → ∃ sp, s.objs c = some sp ∧ sp'.stage = sp.stage ∧
      done sp'.child = done sp.child ∧ (born sp'.child = true → born sp.child = true ∧
        sp'.child.obj.process.pid = sp.child.obj.process.pid))
    (hf : s'.frame = s.frame) (hn : s'.nativeList = s.nativeList)
    (hj : s'.javaList = s.javaList) : Registered s' c := by
  refine g.keep hobj ?_ (fun _ _ _ => by rw [hn]) fun _ _ _ => by rw [hj]
  simp only [exiting, hf, and_self]

/-- A place before `remove` is one before `erase`. -/
theorem exiting_mono (h : exiting s c JniPc.beforeRemove = true) :
    exiting s c JniPc.beforeErase = true := by
  cases hf : s.frame with
  | none => simp [exiting, hf] at h
  | some f =>
      simp only [exiting, hf, Option.any_some, Bool.and_eq_true, JniPc.beforeRemove] at h
      simp only [exiting, hf, Option.any_some, Bool.and_eq_true, JniPc.beforeErase]
      exact ⟨h.1, h.2.2⟩

theorem exiting_other {f : Frame} {before : JniPc → Bool} (hf : s.frame = some f)
    (hne : f.child ≠ c) : exiting s c before = false := by
  simp [exiting, hf, hne]

theorem Distinct.pid_ne (d : Distinct s) {c' : ObjId} {sp sp' : Spawn} (h : s.objs c = some sp)
    (h' : s.objs c' = some sp') (hb : born sp.child = true) (hb' : born sp'.child = true)
    (hne : c ≠ c') : sp.child.obj.process.pid ≠ sp'.child.obj.process.pid :=
  fun hp => hne (d.one _ _ _ _ h h' hb hb' hp)

/-- `processList[pid] = …` of the native half. -/
theorem Registered.nativePut (g : Registered s c) (v : Inv s) (d : Distinct s) {c₀ : ObjId}
    {sp₀ : Spawn} {x : NativeEntry} (hsp₀ : s.objs c₀ = some sp₀)
    (hret : sp₀.child.pc = .returned 0) (hst : sp₀.stage = .new)
    (ho : s'.objs = update s.objs c₀ (some { sp₀ with stage := .native }))
    (hn : s'.nativeList = update s.nativeList sp₀.child.obj.pid (some (some x)))
    (hj : s'.javaList = s.javaList) (hf : s'.frame = s.frame) : Registered s' c := by
  obtain ⟨hb₀, hpid⟩ := (v.objects.reached c₀ sp₀ hsp₀).1.started hret
  have hx (before : JniPc → Bool) : exiting s' c before = exiting s c before := by
    simp only [exiting, hf]
  by_cases hc : c = c₀
  · subst hc
    have hobj {sp' : Spawn} (h : s'.objs c = some sp') : sp' = { sp₀ with stage := .native } := by
      rw [ho, update_self] at h
      exact (Option.some.inj h).symm
    -- an exit callback that runs already has not come to `remove`
    have hlate (hd : done sp₀.child = true) : exiting s c JniPc.beforeRemove = true :=
      (g.late sp₀ hsp₀ hd).resolve_left (by rw [hst]; decide)
    refine ⟨fun sp' hsp' hb' => ?_, fun sp' hsp' hb' => ?_, fun sp' hsp' hd' => ?_⟩
    all_goals
      obtain rfl := hobj hsp'
    · refine iff_of_true ⟨x, ?_⟩ ?_
      · rw [hn, hpid, update_self]
      · cases hd : done sp₀.child with
        | false => simp [inNative, hd]
        | true => simp [inNative, hd, hx, exiting_mono (hlate hd)]
    · rw [hj, g.java sp₀ hsp₀ hb₀]
      simp [inJava, hst]
    · exact .inr (hx _ ▸ hlate hd')
  · refine g.keep (fun sp' h => ?_) ⟨hx _, hx _⟩ (fun sp hsp hb => ?_) fun _ _ _ => by rw [hj]
    · rw [ho, update_of_ne hc] at h
      exact ⟨sp', h, rfl, rfl, fun h => ⟨h, rfl⟩⟩
    · rw [hn, hpid, update_of_ne (d.pid_ne hsp hsp₀ hb hb₀ hc)]

/-- `processList.put` of the Java half. -/
theorem Registered.javaPut (g : Registered s c) (v : Inv s) (d : Distinct s) {c₀ : ObjId}
    {sp₀ : Spawn} {x : JavaEntry} {pid : Int} (hsp₀ : s.objs c₀ = some sp₀)
    (hret : sp₀.child.pc = .returned 0) (hst : sp₀.stage = .native)
    (hpid : sp₀.child.obj.process.pid = pid)
    (ho : s'.objs = update s.objs c₀ (some { sp₀ with stage := .java }))
    (hn : s'.nativeList = s.nativeList)
    (hj : s'.javaList = update s.javaList pid (some x)) (hf : s'.frame = s.frame) :
    Registered s' c := by
  obtain ⟨hb₀, -⟩ := (v.objects.reached c₀ sp₀ hsp₀).1.started hret
  have hx (before : JniPc → Bool) : exiting s' c before = exiting s c before := by
    simp only [exiting, hf]
  by_cases hc : c = c₀
  · subst hc
    have hobj {sp' : Spawn} (h : s'.objs c = some sp') : sp' = { sp₀ with stage := .java } := by
      rw [ho, update_self] at h
      exact (Option.some.inj h).symm
    have hlate (hd : done sp₀.child = true) : exiting s c JniPc.beforeRemove = true :=
      (g.late sp₀ hsp₀ hd).resolve_left (by rw [hst]; decide)
    refine ⟨fun sp' hsp' hb' => ?_, fun sp' hsp' hb' => ?_, fun sp' hsp' hd' => ?_⟩
    all_goals
      obtain rfl := hobj hsp'
    · rw [hn, g.native sp₀ hsp₀ hb₀]
      simp [inNative, hst, hx]
    · refine iff_of_true ⟨x, ?_⟩ ?_
      · rw [hj, hpid, update_self]
      · cases hd : done sp₀.child with
        | false => simp [inJava, hd]
        | true => simp [inJava, hd, hx, hlate hd]
    · exact .inl rfl
  · refine g.keep (fun sp' h => ?_) ⟨hx _, hx _⟩ (fun _ _ _ => by rw [hn]) fun sp hsp hb => ?_
    · rw [ho, update_of_ne hc] at h
      exact ⟨sp', h, rfl, rfl, fun h => ⟨h, rfl⟩⟩
    · rw [hj, ← hpid, update_of_ne (d.pid_ne hsp hsp₀ hb hb₀ hc)]

/-- `processList.remove` of `jniExit`. -/
theorem Registered.remove (g : Registered s c) (v : Inv s) (d : Distinct s) {f : Frame}
    (hf : s.frame = some f) (hpc : f.pc = .remove)
    (hput : f.child = c → ∀ sp, s.objs c = some sp → sp.stage = .java)
    (ho : s'.objs = s.objs) (hn : s'.nativeList = s.nativeList)
    (hj : s'.javaList = update s.javaList f.pid none)
    (hf' : s'.frame = some { f with pc := .erase }) : Registered s' c := by
  have hm := v.frames.ofExit f hf (by rw [hpc]; rfl)
  obtain ⟨sp₀, hsp₀, hborn, hd₀⟩ := v.frames.obj f hf
  obtain ⟨hb₀, hpid⟩ := hborn (by rw [hm]; decide)
  have hobj {sp' : Spawn} (h : s'.objs c = some sp') : s.objs c = some sp' := ho ▸ h
  by_cases hc : c = f.child
  · subst hc
    have hx : exiting s' f.child JniPc.beforeErase = exiting s f.child JniPc.beforeErase :=
      exiting_moved hf hf' fun _ => by simp [JniPc.beforeErase, hpc]
    have hx' : exiting s' f.child JniPc.beforeRemove = false := by
      simp [exiting, hf', JniPc.beforeRemove]
    refine ⟨fun sp' hsp' hb' => ?_, fun sp' hsp' hb' => ?_, fun sp' hsp' hd' => ?_⟩
    · rw [hn, g.native sp' (hobj hsp') hb', inNative, inNative, hx]
    · cases hsp₀.symm.trans (hobj hsp')
      refine iff_of_false ?_ ?_
      · rw [hj, ← hpid, update_self]
        rintro ⟨_, h⟩
        cases h
      · simp [inJava, hd₀ hm, hx']
    · exact .inl (hput rfl sp' (hobj hsp'))
  · refine g.keep (fun sp' h => ⟨sp', hobj h, rfl, rfl, fun h => ⟨h, rfl⟩⟩) ?_
      (fun _ _ _ => by rw [hn]) fun sp hsp hb => ?_
    · simp only [exiting_other hf (Ne.symm hc), exiting_other hf' (Ne.symm hc), and_self]
    · rw [hj, hpid, update_of_ne (d.pid_ne hsp hsp₀ hb hb₀ hc)]

/-- `processList.erase` after `jniExit`. -/
theorem Registered.erase (g : Registered s c) (v : Inv s) (d : Distinct s) {f : Frame}
    (hf : s.frame = some f) (hpc : f.pc = .erase)
    (ho : s'.objs = s.objs) (hn : s'.nativeList = update s.nativeList f.pid none)
    (hj : s'.javaList = s.javaList)
    (hf' : s'.frame = some { f with pc := .tail }) : Registered s' c := by
  have hm := v.frames.ofExit f hf (by rw [hpc]; rfl)
  obtain ⟨sp₀, hsp₀, hborn, hd₀⟩ := v.frames.obj f hf
  obtain ⟨hb₀, hpid⟩ := hborn (by rw [hm]; decide)
  have hobj {sp' : Spawn} (h : s'.objs c = some sp') : s.objs c = some sp' := ho ▸ h
  by_cases hc : c = f.child
  · subst hc
    have hx : exiting s' f.child JniPc.beforeRemove = exiting s f.child JniPc.beforeRemove :=
      exiting_moved hf hf' fun _ => by simp [JniPc.beforeRemove, hpc]
    refine ⟨fun sp' hsp' hb' => ?_, fun sp' hsp' hb' => ?_, fun sp' hsp' hd' => ?_⟩
    · cases hsp₀.symm.trans (hobj hsp')
      refine iff_of_false ?_ ?_
      · rw [hn, ← hpid, update_self]
        rintro ⟨_, h⟩
        cases h
      · simp [inNative, hd₀ hm, exiting, hf', JniPc.beforeErase]
    · rw [hj, g.java sp' (hobj hsp') hb', inJava, inJava, hx]
    · rw [hx]
      exact g.late sp' (hobj hsp') hd'
  · refine g.keep (fun sp' h => ⟨sp', hobj h, rfl, rfl, fun h => ⟨h, rfl⟩⟩) ?_
      (fun sp hsp hb => ?_) fun _ _ _ => by rw [hj]
    · simp only [exiting_other hf (Ne.symm hc), exiting_other hf' (Ne.symm hc), and_self]
    · rw [hn, hpid, update_of_ne (d.pid_ne hsp hsp₀ hb hb₀ hc)]

/-- A callback calls a method of `DoryPuppy`. -/
theorem Registered.invoke (g : Registered s c) (v : Inv s) {c₁ : ObjId} {i : Input}
    {sp₁ : Spawn} {ch : Child JniCallback} {as : List (Act JniCallback)} {k : JniCallback}
    {args : Args} {pid : Int} (hnone : s.frame = none) (hsp : s.objs c₁ = some sp₁)
    (hst : sp₁.child.callbackHead i = some (ch, as)) (hinv : invoked as = some (k, args, pid))
    (ho : s'.objs = update s.objs c₁ (some { sp₁ with child := ch }))
    (hn : s'.nativeList = s.nativeList) (hj : s'.javaList = s.javaList)
    (hf' : s'.frame = some ⟨c₁, i, k, pid, jniArgs args, .containsKey⟩) : Registered s' c := by
  obtain ⟨hr, hl⟩ := v.objects.reached c₁ sp₁ hsp
  rw [invoked_eq hl hst, Option.map_eq_some_iff] at hinv
  obtain ⟨⟨k, args⟩, hk, ⟨⟩⟩ := hinv
  have hx (before : JniPc → Bool) : exiting s c before = false := by simp [exiting, hnone]
  by_cases hc : c = c₁
  · subst hc
    have hobj {sp' : Spawn} (h : s'.objs c = some sp') : sp' = { sp₁ with child := ch } := by
      rw [ho, update_self] at h
      exact (Option.some.inj h).symm
    have hback := hr.born_back (Child.callbackHead_step hst) (Child.callbackHead_spawns hst)
    by_cases hexit : k = .exit
    · subst hexit
      have hd := done_raised hr hst hk
      have hd' := (raised_facts hr hst hk).2 rfl
      have hx' (before : JniPc → Bool) (h : before .containsKey = true) :
          exiting s' c before = true := by simp [exiting, hf', h]
      refine ⟨fun sp' hsp' hb' => ?_, fun sp' hsp' hb' => ?_, fun sp' hsp' _ => ?_⟩
      all_goals
        obtain rfl := hobj hsp'
      · obtain ⟨hb, hp⟩ := hback hb'
        rw [hn, hp, g.native sp₁ hsp hb]
        simp [inNative, hd, hd', hx' JniPc.beforeErase rfl]
      · obtain ⟨hb, hp⟩ := hback hb'
        rw [hj, hp, g.java sp₁ hsp hb]
        simp [inJava, hd, hd', hx' JniPc.beforeRemove rfl]
      · exact .inr (hx' _ rfl)
    · have hx' (before : JniPc → Bool) : exiting s' c before = false := by
        simp [exiting, hf', hexit]
      refine g.keep (fun sp' h => ?_) ⟨by rw [hx, hx'], by rw [hx, hx']⟩ (fun _ _ _ => by rw [hn])
        fun _ _ _ => by rw [hj]
      obtain rfl := hobj h
      exact ⟨sp₁, hsp, rfl, by simp [done_callback hst, hk, hexit], hback⟩
  · have hx' (before : JniPc → Bool) : exiting s' c before = false :=
      exiting_other hf' (Ne.symm hc)
    refine g.keep (fun sp' h => ?_) ⟨by rw [hx, hx'], by rw [hx, hx']⟩ (fun _ _ _ => by rw [hn])
      fun _ _ _ => by rw [hj]
    rw [ho, update_of_ne hc] at h
    exact ⟨sp', h, rfl, rfl, fun h => ⟨h, rfl⟩⟩

/-- `uv_spawn` gives the child its pid, under which no map has an entry. -/
theorem Registered.spawned (g : Registered s c) (v : Inv s) {t : Tid} {i : Input} {sp : Spawn}
    {ch : Child JniCallback} {as : List (Act JniCallback)} (hC : pidFresh s (.spawn t i) = true)
    (hsp : s.objs c = some sp) (hst : sp.stage = .new)
    (hstep : Child.spawnStep sp.child.obj sp.child.pc i = some (ch, as)) (hi : i.spawns = true)
    (ho : s'.objs = update s.objs c (some { sp with child := ch }))
    (hn : s'.nativeList = s.nativeList) (hj : s'.javaList = s.javaList)
    (hf : s'.frame = s.frame) : Registered s' c := by
  obtain ⟨pid, rfl⟩ := Child.eq_of_spawns hi
  have hpid : ch.obj.process.pid = pid := Child.step_processPid (Child.spawnStep_step hstep)
  have hobj {sp' : Spawn} (h : s'.objs c = some sp') : sp' = { sp with child := ch } := by
    rw [ho, update_self] at h
    exact (Option.some.inj h).symm
  refine ⟨fun sp' hsp' _ => ?_, fun sp' hsp' _ => ?_, fun sp' hsp' hd' => ?_⟩
  all_goals
    obtain rfl := hobj hsp'
  · rw [hn, hpid]
    refine iff_of_false ?_ (by simp [inNative, hst])
    rintro ⟨e, he⟩
    obtain ⟨sp₁, hsp₁, -, hb₁, hp₁, -⟩ := v.entries.native pid e he
    exact fresh_spawn hC v.objects hsp₁ hb₁ hp₁
  · rw [hj, hpid]
    refine iff_of_false ?_ (by simp [inJava, hst])
    rintro ⟨e, he⟩
    obtain ⟨sp₁, hsp₁, -, -, hb₁, hp₁⟩ := v.entries.java pid e he
    exact fresh_spawn hC v.objects hsp₁ hb₁ hp₁
  · simp only [exiting, hf]
    exact g.late sp hsp (done_spawnStep hstep ▸ hd')

/-- The exit callback of the child reaches `processList.remove` after the `put`. -/
def PutFirst (s : State) (c : ObjId) (l : Label) : Prop :=
  ∀ now f sp, l = .jni now → s.frame = some f → f.child = c → f.pc = .remove →
    s.objs c = some sp → sp.stage = .java

theorem step_registered (v : Inv s) (d : Distinct s) (g : Registered s c)
    (hC : orderly s l = true) (hput : PutFirst s c l) (hs : Step s l s' os) :
    Registered s' c := by
  simp only [orderly, Bool.and_eq_true] at hC
  have same (ho : s'.objs = s.objs) (sp' : Spawn) (hsp' : s'.objs c = some sp') :
      ∃ sp, s.objs c = some sp ∧ sp'.stage = sp.stage ∧ done sp'.child = done sp.child ∧
        (born sp'.child = true → born sp.child = true ∧
          sp'.child.obj.process.pid = sp.child.obj.process.pid) := by
    rw [ho] at hsp'
    exact ⟨sp', hsp', rfl, rfl, fun h => ⟨h, rfl⟩⟩
  have child {c₁ : ObjId} {sp₁ : Spawn} {i : Input} {ch : Child JniCallback}
      {as : List (Act JniCallback)} (hsp : s.objs c₁ = some sp₁)
      (hst : Child.step sp₁.child i = some (ch, as)) (hi : c = c₁ → i.spawns = false)
      (hd : c = c₁ → done ch = done sp₁.child)
      (ho : s'.objs = update s.objs c₁ (some { sp₁ with child := ch })) (sp' : Spawn)
      (hsp' : s'.objs c = some sp') :
      ∃ sp, s.objs c = some sp ∧ sp'.stage = sp.stage ∧ done sp'.child = done sp.child ∧
        (born sp'.child = true → born sp.child = true ∧
          sp'.child.obj.process.pid = sp.child.obj.process.pid) := by
    rw [ho] at hsp'
    by_cases hc : c = c₁
    · subst hc
      rw [update_self] at hsp'
      cases hsp'
      exact ⟨sp₁, hsp, rfl, hd rfl, (v.objects.reached c sp₁ hsp).1.born_back hst (hi rfl)⟩
    · rw [update_of_ne hc] at hsp'
      exact ⟨sp', hsp', rfl, rfl, fun h => ⟨h, rfl⟩⟩
  cases hs with
  | create =>
      by_cases hc : c = s.next
      · subst hc
        refine ⟨fun sp' hsp' hb' => ?_, fun sp' hsp' hb' => ?_, fun sp' hsp' hd' => ?_⟩
        all_goals
          dsimp only at hsp'
          rw [update_self] at hsp'
          cases hsp'
        · cases hb'
        · cases hb'
        · cases hd'
      · refine g.stay (fun sp' h => ?_) rfl rfl rfl
        dsimp only at h
        rw [update_of_ne hc] at h
        exact ⟨sp', h, rfl, rfl, fun h => ⟨h, rfl⟩⟩
  | @nativePut t mem now call c₀ sp₀ hc hpc hsp hret =>
      exact g.nativePut v d hsp hret (v.calls.spawning hc hpc hsp).2 rfl rfl rfl rfl
  | @javaPut t mem now call c₀ pid sp₀ hc hpc hsp hpos =>
      obtain ⟨-, hst, hret, hpid⟩ := v.calls.javaPut hc hpc hsp hpos
      exact g.javaPut v d hsp hret hst hpid rfl rfl rfl rfl
  | @nullDeref t mem now call pid _ hc hpc hnone =>
      refine g.keep (same rfl) ⟨rfl, rfl⟩ (fun sp hsp hb => ?_) fun _ _ _ => Iff.rfl
      dsimp only
      by_cases hq : sp.child.obj.process.pid = pid
      · rw [hq, update_self]
        refine iff_of_false ?_ ?_
        · rintro ⟨_, h⟩
          cases h
        · rintro ⟨_, h⟩
          rw [h] at hnone
          cases hnone
      · rw [update_of_ne hq]
  | @spawn t i call c₁ sp₁ ch as hcall hpc hsp hst hfree =>
      by_cases hi : c = c₁ ∧ i.spawns = true
      · obtain ⟨rfl, hi⟩ := hi
        exact g.spawned v hC.1 hsp (v.calls.spawning hcall hpc hsp).2 hst hi rfl rfl rfl rfl
      · refine g.stay (child hsp (Child.spawnStep_step hst) (fun hc => ?_)
          (fun _ => done_spawnStep hst) rfl) rfl rfl rfl
        exact Bool.eq_false_iff.mpr fun h => hi ⟨hc, h⟩
  | @callback c₁ i sp₁ ch as hf hsp hst hinv =>
      refine g.stay (child hsp (Child.callbackHead_step hst)
        (fun _ => Child.callbackHead_spawns hst) (fun _ => ?_) rfl) rfl rfl rfl
      have hraised := invoked_eq (v.objects.reached c₁ sp₁ hsp).2 hst
      rw [hinv] at hraised
      rw [done_callback hst, Option.map_eq_none_iff.mp hraised.symm, Option.any_none,
        Bool.or_false]
  | callbackInvoke hnone hsp hst hinv => exact g.invoke v hnone hsp hst hinv rfl rfl rfl rfl
  | @jniMove now f pc' hf hm =>
      refine g.moved hf rfl rfl rfl rfl ?_ fun hexit => ?_
      · generalize f.pc = pc at hm
        cases hm <;> simp
      · generalize f.pc = pc at hm
        cases hm with
        | contains => simp [Frame.found, hexit]
        | absent | noListener => simp [Frame.after, hexit]
        | listener => simp
  | @write now f w pc' e hf hw he =>
      obtain ⟨-, hfound, hpc'⟩ := Frame.write_pc hw
      refine g.moved hf rfl rfl rfl rfl ⟨?_, ?_⟩ fun _ => ?_
      · intro h
        rw [h] at hfound
        cases hfound
      · intro h
        rw [h] at hfound
        cases hfound
      · rcases hpc' with rfl | rfl | rfl <;> simp
  | listener hf hpc => exact g.moved hf rfl rfl rfl rfl (by simp [hpc]) fun _ => by simp
  | nullPointer hf hpc hnone => exact (d.not_nullPointer v hf hpc hnone).elim
  | @remove now f hf hpc =>
      exact g.remove v d hf hpc (fun hc sp hsp => hput now f sp rfl hf hc hpc hsp) rfl rfl rfl rfl
  | erase hf hpc => exact g.erase v d hf hpc rfl rfl rfl rfl
  | @tail now f sp hf hpc hsp =>
      refine g.keep (same rfl) ?_ (fun _ _ _ => Iff.rfl) fun _ _ _ => Iff.rfl
      simp [exiting, hf, hpc, JniPc.beforeErase, JniPc.beforeRemove]
  | listenerReturns hf hpc =>
      exact g.moved hf rfl rfl rfl rfl (by simp [hpc]) fun hm => by simp [Frame.after, hm]
  | listenerThrows => exact absurd hC.2 (by simp [Label.returns])
  | _ => exact g.stay (same rfl) rfl rfl rfl

theorem run_registered {puppies : PuppyId → List (Option JString) × StringTable}
    {h : History Label Event} (c : ObjId)
    (r : machine.RunWhere (fun s l => orderly s l = true ∧ PutFirst s c l) (.init puppies) h s) :
    Registered s c := by
  refine r.inv (fun _ s => Registered s c) ⟨?_, ?_, ?_⟩ ?_
  · intro sp hsp
    cases hsp
  · intro sp hsp
    cases hsp
  · intro sp hsp
    cases hsp
  · intro h s s' l os r hC hs g
    have d := run_distinct (r.mono fun _ _ h => orderly_fresh h.1)
    exact step_registered (run_inv r) d g hC.1 hC.2
      (step_inv hs).2

/-! ### When nothing is under way -/

/-- Pids are not reused, listeners return normally, and the exit callback of a child reaches
`processList.remove` after the `put` of the child. -/
def putFirst (s : State) (l : Label) : Bool :=
  orderly s l && match l with
    | .jni _ => s.frame.all fun f =>
        f.pc ≠ .remove || (s.objs f.child).all fun sp => sp.stage = .java
    | _ => true

/-- A step of an orderly run in which each exit callback waits for the `put`. -/
abbrev Orderly (s : State) (l : Label) : Prop := putFirst s l = true

theorem Orderly.putFirst (hC : Orderly s l) (c : ObjId) :
    orderly s l = true ∧ PutFirst s c l := by
  simp only [Orderly, Manager.putFirst, Bool.and_eq_true] at hC
  refine ⟨hC.1, ?_⟩
  rintro now f sp rfl hf rfl hpc hsp
  simpa [hf, hpc, hsp] using hC.2

/-- A child was started under the pid, and its exit event has not been emitted. -/
def Started (h : History Label Event) (s : State) (q : Int) : Prop :=
  ∃ c sp, s.objs c = some sp ∧ sp.child.pc = .returned 0 ∧ sp.child.obj.getPid = q ∧
    ∀ args, Event.act c (.emit "exit" args) ∉ h.outputs

/-- **The two registries agree and hold exactly the live children.**  In every run in which no pid
is reused, listeners return normally and each exit callback reaches `processList.remove` after the
`put` of its child: when no thread is inside `puppySpawn` or `kill` and no callback runs, the keys
of the native map, the keys of the Java map, and the pids of the children that were started and
whose exit event has not been emitted are the same. -/
theorem registries_agree {puppies : PuppyId → List (Option JString) × StringTable}
    {h : History Label Event} (r : machine.RunWhere Orderly (.init puppies) h s)
    (hq : s.Settled) (q : Int) :
    ((s.nativeList q).isSome ↔ (s.javaList q).isSome) ∧
      ((s.javaList q).isSome ↔ Started h s q) := by
  obtain ⟨hcalls, hframe⟩ := hq
  have v := run_inv r
  have g (c : ObjId) := run_registered c (r.mono fun _ _ hC => Orderly.putFirst hC c)
  have hx (c : ObjId) (before : JniPc → Bool) : exiting s c before = false := by
    simp [exiting, hframe]
  have hdone {c : ObjId} {sp : Spawn} (hsp : s.objs c = some sp) : done sp.child = false ↔
      ∀ args, Event.act c (.emit "exit" args) ∉ h.outputs := by
    rw [← not_exists, run_done r, hsp, Option.any_some, Bool.not_eq_true]
  -- an entry is that of a child that was started and is not done
  have live {c : ObjId} {sp : Spawn} (hsp : s.objs c = some sp) (hst : sp.stage ≠ .new)
      (hpid : sp.child.obj.process.pid = q) (hd : done sp.child = false) : Started h s q := by
    have hret := v.calls.put c sp hsp hst
    have hstored := (v.objects.reached c sp hsp).1.started hret
    exact ⟨c, sp, hsp, hret, hstored.2.trans hpid, (hdone hsp).mp hd⟩
  have native (hn : (s.nativeList q).isSome) : Started h s q := by
    obtain ⟨x, hx'⟩ := Option.isSome_iff_exists.mp hn
    cases x with
    | none =>
        -- after a null entry a thread is still inside `kill`
        obtain ⟨t, call, hc, hpc⟩ := v.entries.crash (v.entries.null q hx')
        rw [hcalls t call hc] at hpc
        cases hpc
    | some e =>
        obtain ⟨sp, hsp, hst, hb, hpid, -⟩ := v.entries.native q e hx'
        have hin := ((g e.child).native sp hsp hb).mp ⟨e, hpid ▸ hx'⟩
        simp only [inNative, hx, Bool.or_false, Bool.and_eq_true, Bool.not_eq_true'] at hin
        exact live hsp hst hpid hin.2
  have java (hj : (s.javaList q).isSome) : Started h s q := by
    obtain ⟨e, he⟩ := Option.isSome_iff_exists.mp hj
    obtain ⟨sp, hsp, hst, -, hb, hpid⟩ := v.entries.java q e he
    have hin := ((g e.child).java sp hsp hb).mp ⟨e, hpid ▸ he⟩
    simp only [inJava, hx, Bool.or_false, Bool.and_eq_true, Bool.not_eq_true'] at hin
    exact live hsp (by rw [hst]; decide) hpid hin.2
  -- a child that was started is in both maps until its exit event
  have both (hlive : Started h s q) : (s.nativeList q).isSome ∧ (s.javaList q).isSome := by
    obtain ⟨c, sp, hsp, hret, hpid, hnot⟩ := hlive
    have hd := (hdone hsp).mpr hnot
    obtain ⟨hb, hstored⟩ := (v.objects.reached c sp hsp).1.started hret
    have hq : sp.child.obj.process.pid = q := hstored.symm.trans hpid
    have hst : sp.stage = .java := by
      rcases v.calls.registered c sp hsp with ⟨t, call, hc, hch⟩ | hj | ⟨-, r, hr, hneg⟩
      · have hpc := hcalls t call hc
        rw [CallPc.inSpawnOrKill_of_child hch] at hpc
        cases hpc
      · exact hj
      · cases hret.symm.trans hr
        cases hneg
    obtain ⟨e, he⟩ := ((g c).native sp hsp hb).mpr (by simp [inNative, hst, hd])
    obtain ⟨e', he'⟩ := ((g c).java sp hsp hb).mpr (by simp [inJava, hst, hd])
    rw [← hq, he, he']
    exact ⟨rfl, rfl⟩
  exact ⟨⟨fun h => (both (native h)).2, fun h => (both (java h)).1⟩, java, fun h => (both h).2⟩

/-- The thread whose step it is. -/
def Label.thread? : Label → Option Tid
  | .call t _ _ | .step t _ _ | .spawn t _ => some t
  | _ => none

theorem step_calls_other (hs : Step s l s' os) {t : Tid} (ht : l.thread? ≠ some t) :
    s'.calls t = s.calls t := by
  cases hs with
  | call | setTimeout | create | nativePut | spawnFailed | javaThrow | javaPut | setPid
  | setStartedAt | killMove | killDeref =>
      refine update_of_ne ?_ _ _
      rintro rfl
      exact ht rfl
  | _ => rfl

/-- A thread that has done nothing is in no call. -/
theorem run_calls_other {puppies : PuppyId → List (Option JString) × StringTable}
    {C : State → Label → Prop} {h : History Label Event}
    (r : machine.RunWhere C (.init puppies) h s) {t : Tid}
    (ht : ∀ l ∈ h.inputs, l.thread? ≠ some t) : s.calls t = none := by
  revert ht
  refine r.inv (fun h s => (∀ l ∈ h.inputs, l.thread? ≠ some t) → s.calls t = none)
    (fun _ => rfl) ?_
  intro h s s' l os _ _ hs ih ht
  simp only [History.inputs_append, List.mem_append, or_imp, forall_and] at ht
  rw [step_calls_other (step_inv hs).2 (ht.2 l (.head _)), ih ht.1]

/-- When one thread makes all the calls, no other is in one. -/
theorem calls_of_one {puppies : PuppyId → List (Option JString) × StringTable} {t t' : Tid}
    {h : History Label Event}
    (r : machine.RunWhere (fun _ l => l.thread?.all (· = t) = true) (.init puppies) h s)
    (ht : t' ≠ t) : s.calls t' = none :=
  r.inv (fun _ s => s.calls t' = none) rfl fun _ hC hs ih =>
    (step_calls_other (step_inv hs).2 fun hl => ht (by simpa [hl] using hC)).trans ih

theorem thread_of_one {puppies : PuppyId → List (Option JString) × StringTable} {t t' : Tid}
    {h : History Label Event}
    (r : machine.RunWhere (fun _ l => l.thread?.all (· = t) = true) (.init puppies) h s)
    {call : Call} (hc : s.calls t' = some call) : t' = t := by
  by_contra ht
  rw [calls_of_one r ht] at hc
  cases hc

/-- A run of one thread is quiescent when the thread is in no call and no callback runs. -/
theorem quiescent_of_one {puppies : PuppyId → List (Option JString) × StringTable}
    {C : State → Label → Prop} {h : History Label Event}
    (r : machine.RunWhere C (.init puppies) h s) (t : Tid)
    (hone : h.inputs.all (fun l => l.thread?.all (· = t)) = true) (hc : s.calls t = none)
    (hf : s.frame = none) : s.Quiescent := by
  refine ⟨fun t' => ?_, hf⟩
  by_cases ht : t' = t
  · rw [ht, hc]
  · refine run_calls_other r fun l hl hthread => ht ?_
    have := List.all_eq_true.mp hone l hl
    simpa [hthread] using this

theorem registries_agree_example : ∃ h s,
    machine.RunWhere Orderly (.init examplePuppies) h s ∧
    h.inputs = startsWith (.caller 0) 0 7 ++ exits 0 ++
      startsWith (.caller 0) 1 8 ∧
    (s.nativeList 7).isSome = false ∧ (s.nativeList 8).isSome = true ∧
    ((s.nativeList 8).isSome ↔ (s.javaList 8).isSome) := by
  have r := Machine.execWhere_run (M := machine) (C := putFirst) (s := .init examplePuppies)
    (startsWith (.caller 0) 0 7 ++ exits 0 ++
      startsWith (.caller 0) 1 8) rfl
  exact ⟨_, _, r, rfl, rfl, rfl,
    (registries_agree r (quiescent_of_one r (.caller 0) rfl rfl rfl).settled 8).1⟩

/-- **The exit callback comes before the insertions.**  The child ends while its call is on its way
back from `spawn()`: the exit callback finds nothing to take out, and the entries that are put in
after it stay. -/
theorem exit_before_put : ∃ h s, machine.Run (.init examplePuppies) h s ∧
    h.inputs = spawnsWith (.caller 0) 0 7 ++
      [.callback 0 (.stderrCb UV_EOF []), .callback 0 (.exitCb 0 0), .jni 0, .jni 0, .jni 0,
        .jni 0, go (.caller 0), go (.caller 0), go (.caller 0), go (.caller 0)] ∧
    s.Quiescent ∧ (s.nativeList 7).isSome = true ∧ (s.javaList 7).isSome = true ∧
    ¬ Started h s 7 := by
  have r := Machine.exec_run (M := machine) (s := .init examplePuppies)
    (spawnsWith (.caller 0) 0 7 ++
      [.callback 0 (.stderrCb UV_EOF []), .callback 0 (.exitCb 0 0), .jni 0, .jni 0, .jni 0,
        .jni 0, go (.caller 0), go (.caller 0), go (.caller 0), go (.caller 0)]) rfl
  refine ⟨_, _, r, rfl, quiescent_of_one r (.caller 0) rfl rfl rfl, rfl, rfl, ?_⟩
  rintro ⟨c, sp, hsp, -, -, hnot⟩
  -- there is one child, and its exit event has been emitted
  obtain rfl : c = 0 := by
    by_contra hc
    have := (run_inv r).objects.fresh c (Nat.one_le_iff_ne_zero.mpr hc)
    rw [this] at hsp
    cases hsp
  exact hnot (.status 0 0) (List.mem_of_elem_eq_true rfl)

end Dorypuppy.Manager
