import Dorypuppy.Manager.Kill

/-!
# Manager — the two accesses of the native `kill`

The native `kill` asks `processList.count(pid)` and then uses `processList[pid]`.  The other users
of the map, `spawn` and the exit callback, take `uvMutex`; `kill` takes it for neither of the two,
so the entry can go in between, and `operator[]` then inserts a null pointer (`erased_between`).

`kill_safe_iff`: a history is one in which `kill` never inserts a key and never finds an absent or
a null entry exactly when no `kill` comes to its second access after the key it has counted was
erased and not inserted again.  The runs start anywhere no `kill` is between its two accesses, so
the fields `pid` of the `DoryProcess` objects, which are what `kill` is given, can hold anything.
-/

namespace Dorypuppy.Manager

open Support (Machine History)
open Function (update update_self update_of_ne)

variable {s₀ s s' : State} {l : Label} {os : List Event} {h : History Label Event} {q : Int}

/-- The exit callback erases the key. -/
def Erases (s : State) (l : Label) (q : Int) : Prop :=
  ∃ now f, l = .jni now ∧ s.frame = some f ∧ f.pc = .erase ∧ f.pid = q

/-- `spawn` inserts an entry under the key. -/
def Inserts (s : State) (l : Label) (q : Int) : Prop :=
  ∃ t mem now call c sp, l = .step t mem now ∧ s.calls t = some call ∧ call.pc = .spawning c ∧
    s.objs c = some sp ∧ sp.child.pc = .returned 0 ∧ sp.child.obj.getPid = q

/-- The key was erased, and not inserted since. -/
inductive Lost (s₀ : State) (q : Int) : History Label Event → Prop where
  | erased {h : History Label Event} {s : State} {l : Label} {os : List Event} :
      machine.Run s₀ h s → Erases s l q → Lost s₀ q (h ++ [(l, os)])
  | since {h : History Label Event} {s : State} {l : Label} {os : List Event} :
      machine.Run s₀ h s → Lost s₀ q h → ¬ Inserts s l q → Lost s₀ q (h ++ [(l, os)])

/-- No `kill` is between its two accesses, and there is no null entry. -/
structure Clean (s : State) : Prop where
  running : s.crashed = false
  entries : ∀ q, s.nativeList q ≠ some none
  calls : ∀ t call q g, s.calls t = some call → call.pc ≠ .killDeref q g

/-- A step of a `kill` leaves the native map alone and finds the entry it uses. -/
def SafeKill (s : State) (l : Label) (s' : State) : Prop :=
  ∀ t mem now call, l = .step t mem now → s.calls t = some call → call.pc.ofKill = true →
    s'.nativeList = s.nativeList ∧
      ∀ q g, call.pc = .killDeref q g → ∃ e, s.nativeList q = some (some e)

/-- The step is not the second access of a `kill` to a key that was lost. -/
def InTime (s₀ : State) (h : History Label Event) (s : State) (l : Label) : Prop :=
  ∀ t mem now call q g, l = .step t mem now → s.calls t = some call →
    call.pc = .killDeref q g → ¬ Lost s₀ q h

/-- Every step of a history, with what came before it. -/
def AtEach (s₀ : State) (P : History Label Event → State → Label → State → Prop)
    (h : History Label Event) : Prop :=
  ∀ pre l os post s s', h = pre ++ (l, os) :: post → machine.Run s₀ pre s →
    s.step l = some (s', os) → P pre s l s'

/-! ### The map -/

theorem Inserts.native (hi : Inserts s l q) (hs : s.step l = some (s', os)) :
    ∃ e, s'.nativeList q = some (some e) := by
  obtain ⟨t, mem, now, call, c, sp, rfl, hc, hpc, hsp, hret, rfl⟩ := hi
  obtain ⟨-, hs⟩ := step_inv hs
  cases hs with
  | nativePut hc' hpc' hsp' =>
      cases hc.symm.trans hc'
      cases hpc.symm.trans hpc'
      cases hsp.symm.trans hsp'
      exact ⟨_, update_self ..⟩
  | spawnFailed hc' hpc' hsp' hret' hne =>
      cases hc.symm.trans hc'
      cases hpc.symm.trans hpc'
      cases hsp.symm.trans hsp'
      cases hret.symm.trans hret'
      exact absurd rfl hne
  | killMove hc' hm =>
      cases hc.symm.trans hc'
      rw [hpc] at hm
      cases hm
  | setTimeout hc' hpc' | create hc' hpc' | javaThrow hc' hpc' | javaPut hc' hpc'
  | setPid hc' hpc' | setStartedAt hc' hpc' | killDeref hc' hpc' | nullDeref hc' hpc' =>
      cases hc.symm.trans hc'
      cases hpc.symm.trans hpc'

theorem Erases.native (he : Erases s l q) (hs : s.step l = some (s', os)) :
    s'.nativeList q = none := by
  obtain ⟨now, f, rfl, hf, hpc, rfl⟩ := he
  simp only [State.step, (step_inv hs).1, hf, State.stepJni, hpc] at hs
  cases hs
  exact update_self ..

/-- What is under a key changes by an insertion or an erasure of the key. -/
theorem native_same (hs : Step s l s' os) (hcr : s'.crashed = false) (q : Int) :
    Inserts s l q ∨ Erases s l q ∨ s'.nativeList q = s.nativeList q := by
  cases hs with
  | @nativePut t mem now call c sp hc hpc hsp hret =>
      by_cases hq : sp.child.obj.pid = q
      · exact .inl ⟨t, mem, now, call, c, sp, rfl, hc, hpc, hsp, hret, hq⟩
      · exact .inr (.inr (update_of_ne (Ne.symm hq) _ _))
  | @erase now f hf hpc =>
      by_cases hq : f.pid = q
      · exact .inr (.inl ⟨now, f, rfl, hf, hpc, hq⟩)
      · exact .inr (.inr (update_of_ne (Ne.symm hq) _ _))
  | nullDeref => cases hcr
  | _ => exact .inr (.inr rfl)

/-! ### What a `kill` has counted -/

theorem lost_snoc (r : machine.Run s₀ h s) :
    Lost s₀ q (h ++ [(l, os)]) ↔ Erases s l q ∨ Lost s₀ q h ∧ ¬ Inserts s l q := by
  constructor
  · intro hl
    generalize hk : h ++ [(l, os)] = k at hl
    cases hl with
    | erased r' he =>
        obtain ⟨rfl, hx⟩ := List.append_inj' hk rfl
        cases hx
        cases (r.det r' rfl).2
        exact .inl he
    | since r' hl hn =>
        obtain ⟨rfl, hx⟩ := List.append_inj' hk rfl
        cases hx
        cases (r.det r' rfl).2
        exact .inr ⟨hl, hn⟩
  · rintro (he | ⟨hl, hn⟩)
    · exact .erased r he
    · exact .since r hl hn

/-- A key that is lost is not there, and one that was counted is there or lost. -/
structure Counted (s₀ : State) (h : History Label Event) (s : State) : Prop where
  entries : ∀ q, s.nativeList q ≠ some none
  lost : ∀ q, Lost s₀ q h → s.nativeList q = none
  counted : ∀ t call q g, s.calls t = some call → call.pc = .killDeref q g →
    (s.nativeList q).isSome ∨ Lost s₀ q h

theorem Clean.counted (h₀ : Clean s₀) : Counted s₀ [] s₀ := by
  refine ⟨h₀.entries, fun q hl => ?_, fun t call q g hc hpc => absurd hpc (h₀.calls t call q g hc)⟩
  generalize hk : ([] : History Label Event) = k at hl
  cases hl <;> simp at hk

theorem step_counted (r : machine.Run s₀ h s) (k : Counted s₀ h s)
    (hs : s.step l = some (s', os)) (hcr : s'.crashed = false) :
    Counted s₀ (h ++ [(l, os)]) s' := by
  have same := native_same (step_inv hs).2 hcr
  refine ⟨fun q => ?_, fun q hl => ?_, fun t call q g hc hpc => ?_⟩
  · rcases same q with hi | he | hq
    · obtain ⟨e, he⟩ := hi.native hs
      rw [he]
      exact fun h => Option.some_ne_none e (Option.some.inj h)
    · rw [he.native hs]
      exact (Option.some_ne_none none).symm
    · rw [hq]
      exact k.entries q
  · rcases (lost_snoc r).mp hl with he | ⟨hl, hn⟩
    · exact he.native hs
    · rcases same q with hi | he | hq
      · exact absurd hi hn
      · exact he.native hs
      · exact hq.trans (k.lost q hl)
  · rw [lost_snoc r]
    by_cases hi : Inserts s l q
    · obtain ⟨e, he⟩ := hi.native hs
      exact .inl (by rw [he]; rfl)
    have stays (hkey : (s.nativeList q).isSome) :
        (s'.nativeList q).isSome ∨ Erases s l q ∨ Lost s₀ q h ∧ ¬ Inserts s l q := by
      rcases same q with hi' | he | hq
      · exact absurd hi' hi
      · exact .inr (.inl he)
      · exact .inl (hq ▸ hkey)
    rcases call_back (step_inv hs).2 hc with hc | ⟨p, api, -, -, rfl⟩ | ⟨_, _, call₀, -, -, -, hm⟩
    · rcases k.counted t call q g hc hpc with hkey | hl
      · exact stays hkey
      · exact .inr (.inr ⟨hl, hi⟩)
    · cases api <;> cases hpc
    · rw [hpc] at hm
      generalize call₀.pc = pc at hm
      cases hm with
      | count hkey => exact stays hkey

theorem run_counted (h₀ : Clean s₀) (r : machine.Run s₀ h s) (hcr : s.crashed = false) :
    Counted s₀ h s := by
  revert hcr
  refine r.inv (fun h s => s.crashed = false → Counted s₀ h s) (fun _ => h₀.counted) ?_
  intro h s s' l os r _ hs ih hcr
  exact step_counted r (ih (step_inv hs).1) hs hcr

/-! ### The second access -/

/-- A step of a `kill` that does not come too late is safe, and one that does is not. -/
theorem safeKill_iff (h₀ : Clean s₀) (r : machine.Run s₀ h s) (hs : s.step l = some (s', os)) :
    SafeKill s l s' ↔ InTime s₀ h s l := by
  have hst := (step_inv hs).2
  have k := run_counted h₀ r (step_inv hs).1
  constructor
  · intro hk t mem now call q g hl hc hpc hlost
    obtain ⟨e, he⟩ := (hk t mem now call hl hc (by rw [hpc]; rfl)).2 q g hpc
    rw [k.lost q hlost] at he
    cases he
  · rintro hin t mem now call rfl hc hkill
    have finds (q g : Int) (hpc : call.pc = .killDeref q g) :
        ∃ e, s.nativeList q = some (some e) := by
      have hkey := (k.counted t call q g hc hpc).resolve_right
        (hin t mem now call q g rfl hc hpc)
      obtain ⟨x, hx⟩ := Option.isSome_iff_exists.mp hkey
      cases x with
      | none => exact absurd hx (k.entries q)
      | some e => exact ⟨e, hx⟩
    refine ⟨?_, finds⟩
    cases kill_step hst hc hkill with
    | move _ hs' | found _ _ hs' => rw [hs']
    | null hpc hnone =>
        obtain ⟨e, he⟩ := finds _ _ hpc
        rw [he] at hnone
        cases hnone

/-- **`kill` is safe exactly when it comes in time.**  In every history from a state in which no
`kill` is between its two accesses: no step of a `kill` changes the native map, and each second
access finds an entry that is not null, if and only if no `kill` comes to its second access after
the key was erased and not inserted again. -/
theorem kill_safe_iff (h₀ : Clean s₀) (h : History Label Event) :
    AtEach s₀ (fun _ => SafeKill) h ↔ AtEach s₀ (fun pre s l _ => InTime s₀ pre s l) h := by
  constructor
  · intro hk pre l os post s s' hh r hs
    exact (safeKill_iff h₀ r hs).mp (hk pre l os post s s' hh r hs)
  · intro hk pre l os post s s' hh r hs
    exact (safeKill_iff h₀ r hs).mpr (hk pre l os post s s' hh r hs)

theorem init_clean (puppies : PuppyId → List (Option JString) × StringTable) :
    Clean (.init puppies) := by
  constructor <;> simp [State.init]

/-- What is lost was erased by a callback. -/
theorem Lost.jni (hl : Lost s₀ q h) : ∃ now, .jni now ∈ h.inputs := by
  induction hl with
  | erased _ he =>
      obtain ⟨now, f, rfl, -⟩ := he
      exact ⟨now, by simp⟩
  | since _ _ _ ih =>
      obtain ⟨now, hn⟩ := ih
      exact ⟨now, by simp [hn]⟩

/-- Where no callback of the loop thread goes on, each `kill` is in time. -/
theorem inTime_of_no_jni (hno : ∀ now, .jni now ∉ h.inputs) :
    AtEach s₀ (fun pre s l _ => InTime s₀ pre s l) h := by
  rintro pre l os post s s' rfl - - t mem now call q g - - - hlost
  obtain ⟨now, hn⟩ := hlost.jni
  refine hno now ?_
  rw [History.inputs_append]
  exact List.mem_append_left _ hn

theorem kill_safe_iff_example : ∃ h s, machine.Run (.init examplePuppies) h s ∧
    h.inputs = startsWith (.caller 0) 0 7 ++ killsUpTo (.caller 0) 0 ++ [go (.caller 0)] ∧
    Event.killed 0 7 9 0 ∈ h.outputs ∧
    AtEach (.init examplePuppies) (fun _ => SafeKill) h := by
  have r := Machine.exec_run (M := machine) (s := .init examplePuppies)
    (startsWith (.caller 0) 0 7 ++ killsUpTo (.caller 0) 0 ++ [go (.caller 0)]) rfl
  refine ⟨_, _, r, rfl, List.mem_of_elem_eq_true rfl,
    (kill_safe_iff (init_clean examplePuppies) _).mpr (inTime_of_no_jni fun now hn => ?_)⟩
  have hn : Label.jni now ∈
      startsWith (.caller 0) 0 7 ++ killsUpTo (.caller 0) 0 ++ [go (.caller 0)] := hn
  simp [startsWith, spawnsWith, killsUpTo, go] at hn

/-- **The entry goes between the two accesses.**  A thread has counted the key of a child when the
exit callback of the child erases it; `processList[pid]` then inserts a null pointer, which is
dereferenced. -/
theorem erased_between : ∃ h s s' os, machine.Run (.init examplePuppies) h s ∧
    h.inputs = startsWith (.caller 0) 0 7 ++ killsUpTo (.caller 1) 0 ++ exits 0 ∧
    s.step (go (.caller 1)) = some (s', os) ∧ os = [.nullEntry 0 7] ∧
    s.nativeList 7 = none ∧ (s'.nativeList 7).isSome = true ∧
    ¬ SafeKill s (go (.caller 1)) s' := by
  refine ⟨_, _, _, _, Machine.exec_run (M := machine) (s := .init examplePuppies)
    (startsWith (.caller 0) 0 7 ++ killsUpTo (.caller 1) 0 ++ exits 0) rfl, rfl, rfl, rfl, rfl,
    rfl, fun hk => ?_⟩
  obtain ⟨-, hfinds⟩ := hk (.caller 1) _ _ _ rfl rfl rfl
  obtain ⟨e, he⟩ := hfinds 7 9 rfl
  cases he

end Dorypuppy.Manager
