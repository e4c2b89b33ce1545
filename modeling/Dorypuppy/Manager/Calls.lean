import Dorypuppy.Manager.Objects

/-!
# Manager — calls and the objects they make

A call of `start` works on the object it made, alone, until `processList.put` or its exception.  Its
place in the code and the stage of the object go together (`At`), and an object no call works on
is in both maps or failed (`Calls.registered`).
-/

namespace Dorypuppy.Manager

open Child (Reached born)
open Function (update update_self update_of_ne)

variable {s s' : State} {l : Label} {os : List Event}

/-- The object a call works on. -/
def CallPc.child? : CallPc → Option ObjId
  | .spawning c | .javaPut c _ => some c
  | _ => none

/-- A native object is made, and put in the maps, inside `puppySpawn`. -/
theorem CallPc.inSpawnOrKill_of_child {pc : CallPc} {c : ObjId} (h : pc.child? = some c) :
    pc.inSpawnOrKill = true := by
  cases pc with
  | spawning | javaPut => rfl
  | _ => cases h

theorem begin_child (p : PuppyId) (api : Api) : (api.begin p).pc.child? = none := by
  cases api <;> rfl

theorem KillMove.child {call : Call} {pc : CallPc} {pc' : Option CallPc}
    (h : KillMove s call pc pc') :
    pc.child? = none ∧ ∀ q, pc' = some q → q.child? = none := by
  cases h <;> exact ⟨rfl, by rintro _ ⟨⟩ <;> rfl⟩

/-- Where a call goes from a place in the code, in a state. -/
inductive CallPc.Next (s : State) (p : PuppyId) : CallPc → CallPc → Prop where
  | setTimeout {timeout} : Next s p (.setTimeout timeout) .create
  | create : Next s p .create (.spawning s.next)
  | native {c sp} : s.objs c = some sp → sp.child.pc = .returned 0 →
      Next s p (.spawning c) (.javaPut c sp.child.obj.pid)
  | failed {c sp r} : s.objs c = some sp → sp.child.pc = .returned r → r ≠ 0 →
      Next s p (.spawning c) (.javaPut c r)
  | java {c pid} : 0 < pid → Next s p (.javaPut c pid) (.setPid pid)
  | setPid {pid} : Next s p (.setPid pid) (.setStartedAt pid)
  | check {g} : (s.puppies p).pid ≠ 0 → Next s p (.killCheck g) (.killRead g)
  | read {g} : Next s p (.killRead g) (.killCount (s.puppies p).pid g)
  | count {q g} : (s.nativeList q).isSome → Next s p (.killCount q g) (.killDeref q g)

/-- A call was there before, has just begun, or has gone on in this step. -/
theorem call_back (hs : Step s l s' os) {t : Tid} {call : Call} (h : s'.calls t = some call) :
    s.calls t = some call ∨
    (∃ p api, l = .call t p api ∧ s.calls t = none ∧ call = api.begin p) ∨
    ∃ mem now call₀, l = .step t mem now ∧ s.calls t = some call₀ ∧
      call = { call₀ with pc := call.pc } ∧ CallPc.Next s call₀.puppy call₀.pc call.pc := by
  cases hs with
  | call hnone =>
      rcases update_some h with ⟨rfl, rfl⟩ | h
      · exact .inr (.inl ⟨_, _, rfl, hnone, rfl⟩)
      · exact .inl h
  | setTimeout hc hpc | create hc hpc | setPid hc hpc =>
      rcases update_some h with ⟨rfl, rfl⟩ | h
      · exact .inr (.inr ⟨_, _, _, rfl, hc, rfl, by rw [hpc]; constructor⟩)
      · exact .inl h
  | nativePut hc hpc hsp hret =>
      rcases update_some h with ⟨rfl, rfl⟩ | h
      · exact .inr (.inr ⟨_, _, _, rfl, hc, rfl, by rw [hpc]; exact .native hsp hret⟩)
      · exact .inl h
  | spawnFailed hc hpc hsp hret hne =>
      rcases update_some h with ⟨rfl, rfl⟩ | h
      · exact .inr (.inr ⟨_, _, _, rfl, hc, rfl, by rw [hpc]; exact .failed hsp hret hne⟩)
      · exact .inl h
  | javaThrow | setStartedAt | killDeref => exact .inl (update_none h).2
  | @javaPut t' mem now call' c pid sp hc hpc hsp hpos =>
      by_cases ht : t = t'
      · subst ht
        dsimp only at h
        rw [update_self] at h
        split at h <;> cases h
        exact .inr (.inr ⟨_, _, _, rfl, hc, rfl, by rw [hpc]; exact .java hpos⟩)
      · exact .inl ((update_of_ne ht _ _).symm.trans h)
  | @killMove t' mem now call' pc' hc hm =>
      by_cases ht : t = t'
      · subst ht
        dsimp only at h
        rw [update_self, Option.map_eq_some_iff] at h
        obtain ⟨pc, rfl, rfl⟩ := h
        refine .inr (.inr ⟨_, _, _, rfl, hc, rfl, ?_⟩)
        generalize call'.pc = pc₀ at hm
        cases hm with
        | pid hne => exact .check hne
        | read => exact .read
        | count hkey => exact .count hkey
      · exact .inl ((update_of_ne ht _ _).symm.trans h)
  | _ => exact .inl h

/-- What a step makes of a `DoryProcess`: it stays, a setter changes it, or a field is written, by a
call of `start` or by `jniExit`. -/
inductive PuppyStep (s s' : State) (l : Label) (p : PuppyId) : Prop where
  | same : s'.puppies p = s.puppies p → PuppyStep s s' l p
  | set {x} : l = .set p x → s'.puppies p = (s.puppies p).apply x → PuppyStep s s' l p
  | timeout {t mem now call timeout} : l = .step t mem now → s.calls t = some call →
      call.puppy = p → call.pc = .setTimeout timeout →
      s'.puppies p = (s.puppies p).write (.timeout timeout) → PuppyStep s s' l p
  | pid {t mem now call q} : l = .step t mem now → s.calls t = some call → call.puppy = p →
      call.pc = .setPid q → s'.puppies p = (s.puppies p).write (.pid q) →
      s'.calls t = some { call with pc := .setStartedAt q } → PuppyStep s s' l p
  | startedAt {now} : s'.puppies p = (s.puppies p).write (.startedAt now) → PuppyStep s s' l p
  | exit {now f e w pc} : l = .jni now → s.frame = some f → f.write? now = some (w, pc) →
      s.javaList f.pid = some e → e.puppy = p → s'.puppies p = (s.puppies p).write w →
      PuppyStep s s' l p

theorem step_puppy (hs : Step s l s' os) (p : PuppyId) : PuppyStep s s' l p := by
  have other {p' : PuppyId} {x : DoryProcess} (hp : p ≠ p')
      (ho : s'.puppies = update s.puppies p' x) : PuppyStep s s' l p := by
    refine .same ?_
    rw [ho, update_of_ne hp]
  cases hs with
  | @set p' x =>
      by_cases hp : p = p'
      · subst hp
        exact .set rfl (update_self ..)
      · exact other hp rfl
  | @setTimeout t mem now call timeout hc hpc =>
      by_cases hp : p = call.puppy
      · subst hp
        exact .timeout rfl hc rfl hpc (update_self ..)
      · exact other hp rfl
  | @setPid t mem now call q hc hpc =>
      by_cases hp : p = call.puppy
      · subst hp
        exact .pid rfl hc rfl hpc (update_self ..) (update_self ..)
      · exact other hp rfl
  | @setStartedAt t mem now call q hc hpc =>
      by_cases hp : p = call.puppy
      · subst hp
        exact .startedAt (update_self ..)
      · exact other hp rfl
  | @write now f w pc e hf hw he =>
      by_cases hp : p = e.puppy
      · subst hp
        exact .exit rfl hf hw he rfl (update_self ..)
      · exact other hp rfl
  | _ => exact .same rfl

/-- A call was working on its child before, or has just made it. -/
theorem child_back (hs : Step s l s' os) {t : Tid} {call : Call} {c : ObjId}
    (hc : s'.calls t = some call) (hch : call.pc.child? = some c) :
    c = s.next ∨ ∃ call₀, s.calls t = some call₀ ∧ call₀.pc.child? = some c := by
  rcases call_back hs hc with hc | ⟨p, api, -, -, rfl⟩ | ⟨_, _, call₀, -, hc, -, hm⟩
  · exact .inr ⟨call, hc, hch⟩
  · rw [begin_child] at hch
    cases hch
  · generalize hpc₀ : call₀.pc = pc₀ at hm
    generalize call.pc = pc at hm hch
    cases hm with
    | create =>
        cases hch
        exact .inl rfl
    | native | failed => exact .inr ⟨call₀, hc, by rw [hpc₀]; exact hch⟩
    | _ => cases hch

/-- `spawn()` failed. -/
def Failed (ch : Child JniCallback) : Prop := ∃ r, ch.pc = .returned r ∧ r < 0

/-- The object of a call at a place in the code. -/
def At (sp : Spawn) : CallPc → Prop
  | .javaPut _ pid =>
      sp.stage = .native ∧ sp.child.pc = .returned 0 ∧ sp.child.obj.process.pid = pid ∨
      sp.stage = .new ∧ sp.child.pc = .returned pid ∧ pid < 0
  | _ => sp.stage = .new

structure Calls (s : State) : Prop where
  works : ∀ t call c, s.calls t = some call → call.pc.child? = some c →
    ∃ sp, s.objs c = some sp ∧ sp.puppy = call.puppy ∧ At sp call.pc
  one : ∀ t t' call call' c, s.calls t = some call → s.calls t' = some call' →
    call.pc.child? = some c → call'.pc.child? = some c → t = t'
  registered : ∀ c sp, s.objs c = some sp →
    (∃ t call, s.calls t = some call ∧ call.pc.child? = some c) ∨ sp.stage = .java ∨
      sp.stage = .new ∧ Failed sp.child
  put : ∀ c sp, s.objs c = some sp → sp.stage ≠ .new → sp.child.pc = .returned 0

theorem init_calls (puppies : PuppyId → List (Option JString) × StringTable) :
    Calls (.init puppies) := by
  constructor <;> simp [State.init]

theorem update_eq_self {c : ObjId} {sp : Spawn} (h : s.objs c = some sp) :
    update s.objs c (some sp) = s.objs := by
  rw [← h, Function.update_eq_self]

/-- A call that works on no object goes on to a place where it works on none. -/
theorem Calls.goto {t : Tid} {new : Option Call} (k : Calls s) (ho : s'.objs = s.objs)
    (hc : s'.calls = update s.calls t new)
    (hold : ∀ call, s.calls t = some call → call.pc.child? = none)
    (hnew : ∀ call, new = some call → call.pc.child? = none) : Calls s' := by
  -- a call with an object is one of another thread
  have back {t' : Tid} {call : Call} {c : ObjId} (h : s'.calls t' = some call)
      (hch : call.pc.child? = some c) : s.calls t' = some call := by
    rw [hc] at h
    by_cases ht : t' = t
    · subst ht
      rw [update_self] at h
      rw [hnew call h] at hch
      cases hch
    · rwa [update_of_ne ht] at h
  refine ⟨fun t' call c h hch => ?_, fun t' t'' call call' c h h' hch hch' => ?_,
    fun c sp hsp => ?_, fun c sp hsp => ?_⟩
  · rw [ho]
    exact k.works t' call c (back h hch) hch
  · exact k.one _ _ _ _ c (back h hch) (back h' hch') hch hch'
  · rw [ho] at hsp
    rcases k.registered c sp hsp with ⟨t', call, h, hch⟩ | h
    · refine .inl ⟨t', call, ?_, hch⟩
      rw [hc, update_of_ne]
      · exact h
      · rintro rfl
        rw [hold call h] at hch
        cases hch
    · exact .inr h
  · rw [ho] at hsp
    exact k.put c sp hsp

/-- The call that works on an object, or makes it, moves, and the object with it.  What is left to
show is that the object is where the call is, or registered or failed when the call leaves it. -/
theorem Calls.move {t : Tid} {c : ObjId} {sp' : Spawn} {new : Option Call} (k : Calls s)
    (hold : ∀ call c', s.calls t = some call → call.pc.child? = some c' → c' = c)
    (hown : ∀ t' call, t' ≠ t → s.calls t' = some call → call.pc.child? ≠ some c)
    (hc : s'.calls = update s.calls t new) (ho : s'.objs = update s.objs c (some sp'))
    (hnew : ∀ call c', new = some call → call.pc.child? = some c' →
      c' = c ∧ sp'.puppy = call.puppy ∧ At sp' call.pc)
    (hreg : (∃ call, new = some call ∧ call.pc.child? = some c) ∨ sp'.stage = .java ∨
      sp'.stage = .new ∧ Failed sp'.child)
    (hput : sp'.stage ≠ .new → sp'.child.pc = .returned 0) : Calls s' := by
  have other {t' : Tid} {call : Call} {c' : ObjId} (ht : t' ≠ t) (h : s'.calls t' = some call)
      (hch : call.pc.child? = some c') : s.calls t' = some call ∧ c' ≠ c := by
    rw [hc, update_of_ne ht] at h
    refine ⟨h, ?_⟩
    rintro rfl
    exact hown t' call ht h hch
  refine ⟨fun t' call c' h hch => ?_, fun t₁ t₂ call₁ call₂ c' h₁ h₂ hch₁ hch₂ => ?_,
    fun c' sp hsp => ?_, fun c' sp hsp => ?_⟩
  · by_cases ht : t' = t
    · subst ht
      rw [hc, update_self] at h
      obtain ⟨rfl, hp, hat⟩ := hnew call c' h hch
      exact ⟨sp', by rw [ho, update_self], hp, hat⟩
    · obtain ⟨h', hne⟩ := other ht h hch
      rw [ho, update_of_ne hne]
      exact k.works t' call c' h' hch
  · by_cases ht₁ : t₁ = t <;> by_cases ht₂ : t₂ = t
    · rw [ht₁, ht₂]
    · subst ht₁
      rw [hc, update_self] at h₁
      exact absurd (hnew call₁ c' h₁ hch₁).1 (other ht₂ h₂ hch₂).2
    · subst ht₂
      rw [hc, update_self] at h₂
      exact absurd (hnew call₂ c' h₂ hch₂).1 (other ht₁ h₁ hch₁).2
    · exact k.one _ _ _ _ c' (other ht₁ h₁ hch₁).1 (other ht₂ h₂ hch₂).1 hch₁ hch₂
  · rw [ho] at hsp
    by_cases hcc : c' = c
    · subst hcc
      rw [update_self] at hsp
      cases hsp
      exact hreg.imp_left fun ⟨call, hn, hch⟩ => ⟨t, call, by rw [hc, update_self, hn], hch⟩
    · rw [update_of_ne hcc] at hsp
      rcases k.registered c' sp hsp with ⟨t', call, h, hch⟩ | h
      · refine .inl ⟨t', call, ?_, hch⟩
        rw [hc, update_of_ne]
        · exact h
        · rintro rfl
          exact hcc (hold call c' h hch)
      · exact .inr h
  · rw [ho] at hsp
    by_cases hcc : c' = c
    · subst hcc
      rw [update_self] at hsp
      cases hsp
      exact hput
    · rw [update_of_ne hcc] at hsp
      exact k.put c' sp hsp

/-- The call that works on an object is the only one. -/
theorem Calls.owns {t : Tid} {call : Call} {c : ObjId} (k : Calls s) (hc : s.calls t = some call)
    (hch : call.pc.child? = some c) :
    (∀ call' c', s.calls t = some call' → call'.pc.child? = some c' → c' = c) ∧
      ∀ t' call', t' ≠ t → s.calls t' = some call' → call'.pc.child? ≠ some c := by
  refine ⟨fun call' c' h hch' => ?_, fun t' call' ht h hch' => ht (k.one _ _ _ _ c h hc hch' hch)⟩
  cases hc.symm.trans h
  exact Option.some.inj (hch'.symm.trans hch)

/-- A step of a child leaves its object where its call is. -/
theorem Calls.child {c : ObjId} {sp : Spawn} {i : Input} {ch : Child JniCallback}
    {as : List (Act JniCallback)} (k : Calls s) (ok : Objects s) (hsp : s.objs c = some sp)
    (hst : Child.step sp.child i = some (ch, as)) (hc : s'.calls = s.calls)
    (ho : s'.objs = update s.objs c (some { sp with child := ch })) : Calls s' := by
  have hr := (ok.reached c sp hsp).1
  obtain ⟨hret, -, -⟩ := Child.step_keeps hst
  refine ⟨fun t call c' h hch => ?_, fun t₁ t₂ call₁ call₂ c' h₁ h₂ => ?_, fun c' sp' hsp' => ?_,
    fun c' sp' hsp' => ?_⟩
  · rw [hc] at h
    obtain ⟨sp', hsp', hp, hat⟩ := k.works t call c' h hch
    by_cases hcc : c' = c
    · subst hcc
      cases hsp.symm.trans hsp'
      refine ⟨{ sp with child := ch }, by rw [ho, update_self], hp, ?_⟩
      unfold At at hat ⊢
      split at hat
      · rcases hat with ⟨hs, hpc, hpid⟩ | ⟨hs, hpc, hneg⟩
        · refine .inl ⟨hs, hret _ hpc, ?_⟩
          rw [(hr.born_step hst (hr.stored (.inr (.inr (.inr hpc)))).1).2]
          exact hpid
        · exact .inr ⟨hs, hret _ hpc, hneg⟩
      · exact hat
    · rw [ho, update_of_ne hcc]
      exact ⟨sp', hsp', hp, hat⟩
  · rw [hc] at h₁ h₂
    exact k.one _ _ _ _ c' h₁ h₂
  · rw [ho] at hsp'
    rw [hc]
    by_cases hcc : c' = c
    · subst hcc
      rw [update_self] at hsp'
      cases hsp'
      exact (k.registered c' sp hsp).imp_right
        (Or.imp_right fun ⟨hs, r, hpc, hneg⟩ => ⟨hs, r, hret r hpc, hneg⟩)
    · rw [update_of_ne hcc] at hsp'
      exact k.registered c' sp' hsp'
  · rw [ho] at hsp'
    by_cases hcc : c' = c
    · subst hcc
      rw [update_self] at hsp'
      cases hsp'
      exact fun hs => hret _ (k.put c' sp hsp hs)
    · rw [update_of_ne hcc] at hsp'
      exact k.put c' sp' hsp'

/-- A call in `spawn()` works on an object that is in no map. -/
theorem Calls.spawning (k : Calls s) {t : Tid} {call : Call} {c : ObjId} {sp : Spawn}
    (hc : s.calls t = some call) (hpc : call.pc = .spawning c) (hsp : s.objs c = some sp) :
    sp.puppy = call.puppy ∧ sp.stage = .new := by
  obtain ⟨sp', hsp', hp, hat⟩ := k.works t call c hc (by rw [hpc]; rfl)
  cases hsp.symm.trans hsp'
  rw [hpc] at hat
  exact ⟨hp, hat⟩

/-- A call about to put its object in the Java map has put it in the native one. -/
theorem Calls.javaPut (k : Calls s) {t : Tid} {call : Call} {c : ObjId} {pid : Int} {sp : Spawn}
    (hc : s.calls t = some call) (hpc : call.pc = .javaPut c pid) (hsp : s.objs c = some sp)
    (hpos : 0 < pid) : sp.puppy = call.puppy ∧ sp.stage = .native ∧ sp.child.pc = .returned 0 ∧
      sp.child.obj.process.pid = pid := by
  obtain ⟨sp', hsp', hp, hat⟩ := k.works t call c hc (by rw [hpc]; rfl)
  cases hsp.symm.trans hsp'
  rw [hpc] at hat
  rcases hat with hnative | ⟨-, -, hneg⟩
  · exact ⟨hp, hnative⟩
  · omega

theorem step_calls (ok : Objects s) (k : Calls s) (hs : Step s l s' os) : Calls s' := by
  cases hs with
  | call hnone =>
      refine k.goto rfl rfl (fun call h => ?_) (fun call h => ?_)
      · rw [hnone] at h; cases h
      · cases h; exact begin_child _ _
  | setTimeout hc hpc | setPid hc hpc =>
      refine k.goto rfl rfl (fun call h => ?_) (fun call h => ?_)
      · rw [hc] at h; cases h; rw [hpc]; rfl
      · cases h; rfl
  | setStartedAt hc hpc | killDeref hc hpc =>
      refine k.goto rfl rfl (fun call h => ?_) (fun call h => by cases h)
      rw [hc] at h; cases h; rw [hpc]; rfl
  | @killMove t mem now call pc' hc hm =>
      refine k.goto rfl rfl (fun call' h => ?_) (fun call' h => ?_)
      · rw [hc] at h
        cases h
        exact hm.child.1
      · obtain ⟨pc, rfl, rfl⟩ := Option.map_eq_some_iff.mp h
        exact hm.child.2 pc rfl
  | @create t mem now call setup hc hpc hset =>
      refine k.move (fun call' c h hch => ?_) (fun t' call' _ h hch => ?_) rfl rfl ?_
        (.inl ⟨_, rfl, rfl⟩) fun h => absurd rfl h
      · cases hc.symm.trans h
        rw [hpc] at hch
        cases hch
      · obtain ⟨sp, hsp, -⟩ := k.works t' call' s.next h hch
        rw [ok.fresh s.next le_rfl] at hsp
        cases hsp
      · rintro call' c ⟨rfl⟩ ⟨rfl⟩
        exact ⟨rfl, rfl, rfl⟩
  | @nativePut t mem now call c sp hc hpc hsp hret =>
      have hch : call.pc.child? = some c := by rw [hpc]; rfl
      have hst := (ok.reached c sp hsp).1.started hret
      obtain ⟨hp, -⟩ := k.spawning hc hpc hsp
      refine k.move (k.owns hc hch).1 (k.owns hc hch).2 rfl rfl ?_ (.inl ⟨_, rfl, rfl⟩)
        fun _ => hret
      rintro call' c' ⟨rfl⟩ ⟨rfl⟩
      exact ⟨rfl, hp, .inl ⟨rfl, hret, hst.2.symm⟩⟩
  | @spawnFailed t mem now call c sp r hc hpc hsp hret hne =>
      have hch : call.pc.child? = some c := by rw [hpc]; rfl
      have hcode := (ok.reached c sp hsp).1.code hret
      obtain ⟨hp, hnew⟩ := k.spawning hc hpc hsp
      refine k.move (k.owns hc hch).1 (k.owns hc hch).2 rfl (update_eq_self hsp).symm ?_
        (.inl ⟨_, rfl, rfl⟩) fun h => absurd hnew h
      rintro call' c' ⟨rfl⟩ ⟨rfl⟩
      exact ⟨rfl, hp, .inr ⟨hnew, hret, by omega⟩⟩
  | @javaThrow t mem now call c pid hc hpc hneg =>
      have hch : call.pc.child? = some c := by rw [hpc]; rfl
      obtain ⟨sp, hsp, -, hat⟩ := k.works t call c hc hch
      rw [hpc] at hat
      have hr := (ok.reached c sp hsp).1
      rcases hat with ⟨-, hret, rfl⟩ | ⟨hnew, hret, hlt⟩
      · have := hr.pid_pos (hr.started hret).1
        omega
      · exact k.move (k.owns hc hch).1 (k.owns hc hch).2 rfl (update_eq_self hsp).symm
          (fun _ _ h => by cases h) (.inr (.inr ⟨hnew, _, hret, hlt⟩)) fun h => absurd hnew h
  | @javaPut t mem now call c pid sp hc hpc hsp hpos =>
      have hch : call.pc.child? = some c := by rw [hpc]; rfl
      obtain ⟨-, -, hret, -⟩ := k.javaPut hc hpc hsp hpos
      refine k.move (k.owns hc hch).1 (k.owns hc hch).2 rfl rfl (fun call' c' h hch' => ?_)
        (.inr (.inl rfl)) fun _ => hret
      split at h
      · cases h; cases hch'
      · cases h
  | spawn _ _ hsp hst => exact k.child ok hsp (Child.spawnStep_step hst) rfl rfl
  | callback _ hsp hst | callbackInvoke _ hsp hst =>
      exact k.child ok hsp (Child.callbackHead_step hst) rfl rfl
  | _ => exact ⟨k.works, k.one, k.registered, k.put⟩

end Dorypuppy.Manager
