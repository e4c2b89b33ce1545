import Dorypuppy.Manager.Children
import Dorypuppy.Manager.Running

/-!
# Manager — the timeout of a call of `start`

`start(timeout)` hands its argument over in a field: it writes `this.timeout`, and `puppySpawn`
reads `puppy.timeout` some steps later.  A second `start()` of the same `DoryProcess` may write the
field in between, and then the first child gets the timeout of the second call.

Nothing else gets in the way: when no `start()` writes between the write and the read of another
(`Unshared`), the timer of each child is armed with the timeout its own call was given
(`start_arms`), whatever the other threads, the setters and the callbacks do.
-/

namespace Dorypuppy.Manager

open Support (Machine History)
open Function (update update_self update_of_ne)

variable {s s' : State} {l : Label} {os : List Event} {c : ObjId} {t : Tid} {p : PuppyId}

/-- The call a thread begins. -/
def Label.begun? (t : Tid) : Label → Option (PuppyId × Api)
  | .call t' p api => if t' = t then some (p, api) else none
  | _ => none

/-- The last call a thread has begun. -/
def lastCall (t : Tid) (is : List Label) : Option (PuppyId × Api) :=
  (is.filterMap (Label.begun? t)).getLast?

theorem lastCall_snoc (t : Tid) (is : List Label) (l : Label) :
    lastCall t (is ++ [l]) = (l.begun? t).or (lastCall t is) := by
  rw [lastCall, List.filterMap_append, List.getLast?_append, lastCall]
  cases h : l.begun? t <;> simp [h]

theorem lastCall_mem {is : List Label} {api : Api} (h : lastCall t is = some (p, api)) :
    .call t p api ∈ is := by
  obtain ⟨l, hl, hb⟩ := List.mem_filterMap.mp (List.mem_of_getLast? h)
  cases l with
  | call t' p' api' =>
      rw [Label.begun?, Option.ite_none_right_eq_some] at hb
      obtain ⟨rfl, hb⟩ := hb
      cases hb
      exact hl
  | _ => cases hb

/-- No `start()` writes the timeout of a `DoryProcess` between the write and the read of another
one. -/
def Unshared (s : State) (l : Label) : Prop :=
  ∀ t mem now call timeout, l = .step t mem now → s.calls t = some call →
    call.pc = .setTimeout timeout → ∀ t' call', s.calls t' = some call' →
      call'.inStart = true → call'.pc = .create → call'.puppy ≠ call.puppy

/-! ### The field -/

/-- `timeout` is what it was, or a `start()` has written it. -/
theorem timeout_back (hs : Step s l s' os) (p : PuppyId) :
    (s'.puppies p).timeout = (s.puppies p).timeout ∨
    ∃ t mem now call timeout, l = .step t mem now ∧ s.calls t = some call ∧ call.puppy = p ∧
      call.pc = .setTimeout timeout := by
  cases step_puppy hs p with
  | same h => exact .inl (by rw [h])
  | @set x _ h =>
      refine .inl ?_
      rw [h]
      cases x with
      | listener k x => cases k <;> cases x <;> rfl
      | _ => rfl
  | @timeout t mem now call timeout hl hc hp hpc =>
      exact .inr ⟨t, mem, now, call, timeout, hl, hc, hp, hpc⟩
  | startedAt h | pid _ _ _ _ h => exact .inl (by rw [h]; rfl)
  | exit _ _ hw _ _ h =>
      refine .inl ?_
      rw [h]
      unfold Frame.write? at hw
      split at hw <;> cases hw <;> rfl

/-- The assignment of `this.timeout`. -/
theorem setTimeout_step {mem : Uninit} {now : Date} {call : Call} {timeout : Int64}
    (hc : s.calls t = some call) (hpc : call.pc = .setTimeout timeout)
    (hs : s.step (.step t mem now) = some (s', os)) :
    (s'.puppies call.puppy).timeout = timeout := by
  rw [call_goes (step_inv hs).1 hc] at hs
  simp only [State.stepCall, hpc] at hs
  cases hs
  dsimp only
  rw [update_self]
  rfl

/-! ### The calls under way -/

/-- Where a call of `start` holds the timeout it was given, with the field `field`. -/
def CallPc.Holds (field timeout : Int64) : CallPc → Prop
  | .setTimeout x => x = timeout
  | .create => field = timeout
  | _ => True

/-- Each call under way is the last its thread has begun, and until it reads the timeout this is the
one it was given. -/
def Given (h : History Label Event) (s : State) : Prop :=
  ∀ t call, s.calls t = some call → ∃ api, lastCall t h.inputs = some (call.puppy, api) ∧
    call.inStart = (api.begin call.puppy).inStart ∧
    ∀ timeout, api = .start timeout → call.pc.Holds (s.puppies call.puppy).timeout timeout

/-- A thread that is in a call begins none. -/
theorem begun_none (hs : Step s l s' os) {call : Call} (hc : s.calls t = some call) :
    l.begun? t = none := by
  cases hs with
  | call hnone =>
      refine if_neg ?_
      rintro rfl
      rw [hnone] at hc
      cases hc
  | _ => rfl

theorem step_given {h : History Label Event} (hC : Unshared s l)
    (hs : s.step l = some (s', os)) (g : Given h s) : Given (h ++ [(l, os)]) s' := by
  have hstep := (step_inv hs).2
  intro t call hc
  rw [History.inputs_append, History.inputs_cons, History.inputs_nil, lastCall_snoc]
  rcases call_back hstep hc with hc₀ | ⟨p, api, rfl, -, rfl⟩ |
    ⟨mem, now, call₀, rfl, hc₀, hcall, hm⟩
  · obtain ⟨api, hlast, hin, hgiven⟩ := g t call hc₀
    refine ⟨api, by rw [begun_none hstep hc₀, hlast]; rfl, hin, ?_⟩
    rintro timeout rfl
    have hpc := hgiven timeout rfl
    cases hpc' : call.pc with
    | create =>
        rw [hpc'] at hpc
        rcases timeout_back hstep call.puppy with hsame | ⟨t₁, mem, now, call₁, x, rfl, hc₁, hp, hx⟩
        · exact hsame.trans hpc
        · exact absurd hp.symm (hC t₁ mem now call₁ x rfl hc₁ hx t call hc₀ hin hpc')
    | setTimeout x =>
        rw [hpc'] at hpc
        exact hpc
    | _ => exact trivial
  · refine ⟨api, ?_, by cases api <;> rfl, ?_⟩
    · rw [Label.begun?, if_pos rfl]
      cases api <;> rfl
    · rintro timeout rfl
      rfl
  · obtain ⟨api, hlast, hin, hgiven⟩ := g t call₀ hc₀
    rw [hcall]
    refine ⟨api, by rw [begun_none hstep hc₀, hlast]; rfl, hin, ?_⟩
    rintro timeout rfl
    have hpc := hgiven timeout rfl
    cases hpc₀ : call₀.pc with
    | setTimeout x =>
        rw [hpc₀] at hm hpc
        generalize call.pc = pc at hm
        cases hm
        exact (setTimeout_step hc₀ hpc₀ hs).trans hpc
    | _ =>
        rw [hpc₀] at hm
        generalize call.pc = pc at hm
        cases hm <;> exact trivial

section
variable {puppies : PuppyId → List (Option JString) × StringTable} {h : History Label Event}

theorem run_given (r : machine.RunWhere Unshared (.init puppies) h s) : Given h s :=
  r.inv Given (fun t call hc => by cases hc) fun _ hC hs g => step_given hC hs g

/-- **Each child has the timeout of its own call.**  In every run in which no `start()` writes the
timeout of a `DoryProcess` between the write and the read of another, each native object is made in
the last call its thread has begun.  When that is `start(timeout)`, the object calls
`uv_timer_start` with this timeout and with no other, it has done so when `spawn()` comes to
`uv_spawn`, and with 0 it does not call it. -/
theorem start_arms (r : machine.RunWhere Unshared (.init puppies) h s) {sp : Spawn}
    (hsp : s.objs c = some sp) :
    ∃ h₁ s₁ t mem now s₂ setup h₂ api, h = h₁ ++ (.step t mem now, []) :: h₂ ∧
      Origin puppies h₁ s₁ (.step t mem now) s₂ c sp.puppy setup ∧
      lastCall t h₁.inputs = some (sp.puppy, api) ∧
      ∀ timeout, api = .start timeout →
        (∀ n, .act c (.uv (.timerStart n)) ∈ h.outputs → n = timeout.toUInt64 ∧ timeout ≠ 0) ∧
        (timeout ≠ 0 → 2 ≤ sp.child.pc.rank →
          .act c (.uv (.timerStart timeout.toUInt64)) ∈ h.outputs) := by
  obtain ⟨h₁, s₁, l, s₂, setup, h₂, e, o, r₂⟩ := run_origin r hsp
  obtain ⟨k, rk, -, hk⟩ := o.child r₂.run hsp
  obtain ⟨-, -, t, mem, now, call, setup', rfl, hc, hpc, hsetup, hnew⟩ :=
    step_makes (run_inv o.before) o.absent (step_inv o.makes).2 o.made
  have hp : call.puppy = sp.puppy := (congrArg Spawn.puppy hnew).symm
  have g : Given h₁ s₁ := run_given (o.before_where (e ▸ r))
  obtain ⟨api, hlast, -, hgiven⟩ := g t call hc
  rw [hp] at hlast hgiven
  refine ⟨h₁, s₁, t, mem, now, s₂, setup, h₂, api, e, o, hlast, ?_⟩
  intro timeout hapi
  -- the field holds the timeout when the call reads it
  have hfield : (s₁.puppies sp.puppy).timeout = timeout := by
    have := hgiven timeout hapi
    rwa [hpc] at this
  have htime : setup.timeout = timeout.toUInt64 := by
    obtain ⟨mem, hset⟩ := o.copied
    rw [DoryProcess.setup_timeout hset, hfield]
  have did {a : Act JniCallback} (hlate : isLate a = false) :
      a ∈ k.outputs ↔ .act c a ∈ h.outputs := mem_of_early hlate (e ▸ hk)
  have hpos : 0 < timeout.toUInt64 ↔ timeout ≠ 0 := by
    rw [UInt64.pos_iff_ne_zero]
    exact not_congr ⟨fun h => congrArg UInt64.toInt64 h, fun h => by rw [h]; rfl⟩
  refine ⟨fun n hn => ?_, fun hne hrank => ?_⟩
  · obtain ⟨rfl, h0⟩ := Child.run_arms_for rk n ((did rfl).mpr hn)
    rw [htime] at h0 ⊢
    exact ⟨rfl, hpos.mp h0⟩
  · have := Child.run_armed rk (htime ▸ hpos.mpr hne) hrank
    rw [htime] at this
    exact (did rfl).mp this

theorem unshared_of_one
    (r : machine.RunWhere (fun _ l => l.thread?.all (· = t) = true) (.init puppies) h s) :
    machine.RunWhere Unshared (.init puppies) h s := by
  refine r.imp fun {h s l} r _ => ?_
  rintro t₁ mem now call timeout - hc hpc t₂ call' hc' - hpc'
  obtain rfl := thread_of_one r hc
  obtain rfl := thread_of_one r hc'
  cases hc.symm.trans hc'
  rw [hpc] at hpc'
  cases hpc'

/-- Two calls of `start` on one `DoryProcess`, one after the other. -/
theorem start_arms_example : ∃ h s sp h₁ t, machine.RunWhere Unshared (.init examplePuppies) h s ∧
    s.objs 1 = some sp ∧ h₁ <+: h ∧ lastCall t (History.inputs h₁) = some (0, .start 9) ∧
    .act 1 (.uv (.timerStart 9)) ∈ h.outputs := by
  have r := unshared_of_one (t := .caller 0) (Machine.execWhere_run (M := machine)
    (C := fun _ l => l.thread?.all (· = .caller 0)) (s := .init examplePuppies)
    (startsWith (.caller 0) 0 7 ++ [.call (.caller 0) 0 (.start 9), go (.caller 0),
      go (.caller 0), .spawn (.caller 0) .enter, .spawn (.caller 0) .timerStart]) rfl)
  obtain ⟨h₁, -, t, mem, now, -, -, h₂, api, e, -, hlast, harms⟩ := start_arms (c := 1) r rfl
  have hpre := List.prefix_append h₁ ((Label.step t mem now, ([] : List Event)) :: h₂)
  rw [← e] at hpre
  -- it is one of the two calls, and the timeout of the first is 0
  have hapi : api = .start 0 ∨ api = .start 9 := by
    have := (hpre.map Prod.fst).subset (lastCall_mem hlast)
    simp [go] at this
    exact this.imp (fun h => h.2.2) fun h => h.2.2
  rcases hapi with rfl | rfl
  · exact absurd rfl ((harms 0 rfl).1 9 (List.mem_of_elem_eq_true rfl)).2
  · exact ⟨_, _, _, h₁, t, r, rfl, hpre, hlast, (harms 9 rfl).2 (by decide) le_rfl⟩

/-- Two threads start one `DoryProcess`, the first with 5 and the second with 9, and the child of
the first gets 9. -/
example : ∃ h s, machine.Run (.init examplePuppies) h s ∧
    lastCall (.caller 0) h.inputs = some (0, .start 5) ∧
    .act 0 (.uv (.timerStart 9)) ∈ h.outputs := by
  have r := Machine.exec_run (M := machine) (s := .init examplePuppies)
    [.call (.caller 0) 0 (.start 5), go (.caller 0), .call (.caller 1) 0 (.start 9),
      go (.caller 1), go (.caller 0), .spawn (.caller 0) .enter,
      .spawn (.caller 0) .timerStart] rfl
  exact ⟨_, _, r, rfl, .tail _ (.head _)⟩

end

end Dorypuppy.Manager
