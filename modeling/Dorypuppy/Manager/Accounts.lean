import Dorypuppy.Support.Account
import Dorypuppy.Manager.Registry

/-!
# Manager — the accounts of the two maps

Without any condition on the order of exits and insertions the two maps need not hold the living
children; but nothing gets lost in them.  A child is put in each map once, and it is taken out by
its own exit callback or not at all.

* `entries_accounted`: when no pid is reused, in every run, the children in a map are those that
  were put in it and have not been taken out; nobody was taken out twice, nor by another's callback.
* `left_behind_stays`: what the exit callback of a child has left in a map stays there for ever.
-/

namespace Dorypuppy.Manager

open Child (born done)
open Support (Machine History Account Moves Listed)
open Function (update update_self update_of_ne)

variable {s s' : State} {l : Label} {os : List Event} {c : ObjId}

/-! ### The tables -/

/-- Whose entry is at a key of the native map. -/
def natives (s : State) (q : Int) : Option ObjId := (s.nativeList q).join.map NativeEntry.child

/-- Whose entry is at a key of the Java map. -/
def javas (s : State) (q : Int) : Option ObjId := (s.javaList q).map JavaEntry.child

def putAt (p : Stage → Bool) (s : State) (c : ObjId) : Bool := (s.objs c).any fun sp => p sp.stage

/-- The child has been put in the native map. -/
def putNative : State → ObjId → Bool := putAt fun st => st ≠ .new

/-- The child has been put in the Java map. -/
def putJava : State → ObjId → Bool := putAt fun st => st = .java

/-- The child whose entry an exit callback took out of the native map. -/
def Event.erased? : Event → Option ObjId
  | .erased _ e _ => e
  | _ => none

/-- The child whose entry it took out of the Java map. -/
def Event.removed? : Event → Option ObjId
  | .removed _ e _ => e
  | _ => none

theorem natives_iff {q : Int} : natives s q = some c ↔
    ∃ e, s.nativeList q = some (some e) ∧ e.child = c := by
  rw [natives, Option.map_eq_some_iff]
  exact exists_congr fun e => and_congr_left' Option.join_eq_some_iff

theorem natives_ok (v : Inv s) {q : Int} (h : natives s q = some c) :
    ∃ sp, s.objs c = some sp ∧ sp.stage ≠ .new ∧ born sp.child = true ∧
      sp.child.obj.process.pid = q := by
  obtain ⟨e, he, rfl⟩ := natives_iff.mp h
  obtain ⟨sp, hsp, hst, hb, hpid, -⟩ := v.entries.native q e he
  exact ⟨sp, hsp, hst, hb, hpid⟩

theorem javas_ok (v : Inv s) {q : Int} (h : javas s q = some c) :
    ∃ sp, s.objs c = some sp ∧ sp.stage = .java ∧ born sp.child = true ∧
      sp.child.obj.process.pid = q := by
  obtain ⟨e, he, rfl⟩ := Option.map_eq_some_iff.mp h
  obtain ⟨sp, hsp, hst, -, hb, hpid⟩ := v.entries.java q e he
  exact ⟨sp, hsp, hst, hb, hpid⟩

theorem natives_one (v : Inv s) {q q' : Int} (h : natives s q = some c)
    (h' : natives s q' = some c) : q = q' := by
  obtain ⟨sp, hsp, -, -, hpid⟩ := natives_ok v h
  obtain ⟨sp', hsp', -, -, hpid'⟩ := natives_ok v h'
  cases hsp.symm.trans hsp'
  exact hpid.symm.trans hpid'

theorem javas_one (v : Inv s) {q q' : Int} (h : javas s q = some c)
    (h' : javas s q' = some c) : q = q' := by
  obtain ⟨sp, hsp, -, -, hpid⟩ := javas_ok v h
  obtain ⟨sp', hsp', -, -, hpid'⟩ := javas_ok v h'
  cases hsp.symm.trans hsp'
  exact hpid.symm.trans hpid'

theorem putAt_some {p : Stage → Bool} {sp : Spawn} (h : s.objs c = some sp) :
    putAt p s c = p sp.stage := by
  rw [putAt, h, Option.any_some]

theorem putAt_none {p : Stage → Bool} (h : s.objs c = none) : putAt p s c = false := by
  rw [putAt, h, Option.any_none]

/-- An object is replaced by one at another stage. -/
theorem putAt_update {p : Stage → Bool} {c₁ : ObjId} {sp : Spawn}
    (ho : s'.objs = update s.objs c₁ (some sp)) (c : ObjId) :
    putAt p s' c = if c = c₁ then p sp.stage else putAt p s c := by
  rw [putAt, ho]
  split
  · rename_i hc
    rw [hc, update_self, Option.any_some]
  · rename_i hc
    rw [update_of_ne hc]
    rfl

/-- An object is replaced by one at the same stage. -/
theorem putAt_same {p : Stage → Bool} {c₁ : ObjId} {sp sp₁ : Spawn}
    (hsp : s.objs c₁ = some sp₁) (ho : s'.objs = update s.objs c₁ (some sp))
    (hst : p sp.stage = p sp₁.stage) (c : ObjId) : putAt p s' c = putAt p s c := by
  rw [putAt_update ho]
  split
  · rename_i hc
    rw [hc, hst, putAt_some hsp]
  · rfl

theorem erased_acts {as : List (Act JniCallback)} :
    (as.map (Event.act c)).filterMap Event.erased? = [] := by
  simp [List.filterMap_map, Event.erased?]

theorem removed_acts {as : List (Act JniCallback)} :
    (as.map (Event.act c)).filterMap Event.removed? = [] := by
  simp [List.filterMap_map, Event.removed?]

theorem natives_update {q : Int} {x : Option (Option NativeEntry)}
    (hn : s'.nativeList = update s.nativeList q x) :
    natives s' = update (natives s) q (x.join.map NativeEntry.child) := by
  funext q'
  rw [natives, hn]
  by_cases hq : q' = q
  · rw [hq, update_self, update_self]
  · rw [update_of_ne hq, update_of_ne hq]
    rfl

theorem javas_update {q : Int} {x : Option JavaEntry}
    (hj : s'.javaList = update s.javaList q x) :
    javas s' = update (javas s) q (x.map JavaEntry.child) := by
  funext q'
  rw [javas, hj]
  by_cases hq : q' = q
  · rw [hq, update_self, update_self]
  · rw [update_of_ne hq, update_of_ne hq]
    rfl

theorem filterMap_one {α β : Type} (f : α → Option β) (a : α) :
    [a].filterMap f = (f a).toList := by
  cases h : f a <;> simp [h]

/-! ### One step -/

theorem step_natives (v : Inv s) (d : Distinct s) (hs : Step s l s' os) :
    Moves (natives s) (natives s') (putNative s) (putNative s') (os.filterMap Event.erased?) := by
  cases hs with
  | create =>
      refine .stay rfl (fun c => (putAt_update rfl c).trans ?_) rfl
      split
      · rename_i hc
        exact (putAt_none (v.objects.fresh c hc.ge)).symm
      · rfl
  | @nativePut t mem now call c sp hc hpc hsp hret =>
      obtain ⟨hborn, hpid⟩ := (v.objects.reached c sp hsp).1.started hret
      have hst := (v.calls.spawning hc hpc hsp).2
      refine .put (natives_update (x := some (some ⟨sp.child.obj, c⟩)) rfl) ?_ ?_ (fun c' => ?_) rfl
      · by_contra hne
        obtain ⟨c', hc'⟩ := Option.ne_none_iff_exists'.mp hne
        obtain ⟨sp', hsp', hst', hb', hpid'⟩ := natives_ok v hc'
        have := d.one _ _ _ _ hsp' hsp hb' hborn (hpid'.trans hpid)
        subst this
        cases hsp.symm.trans hsp'
        exact hst' hst
      · exact (putAt_some hsp).trans (by rw [hst]; rfl)
      · rw [putNative, putAt_update rfl]
        rfl
  | @javaPut t mem now call c pid sp hc hpc hsp hpos =>
      have hst := (v.calls.javaPut hc hpc hsp hpos).2.1
      refine .stay rfl (putAt_same hsp rfl (by rw [hst]; rfl)) ?_
      split <;> rfl
  | nullDeref hc hpc hnone =>
      refine .stay ((natives_update rfl).trans ?_) (fun _ => rfl) rfl
      exact Function.update_eq_self_iff.mpr (by rw [natives, hnone]; rfl)
  | erase =>
      exact .take (natives_update (x := none) rfl) (fun _ => rfl) (filterMap_one _ _)
  | spawn _ _ hsp | callback _ hsp | callbackInvoke _ hsp =>
      exact .stay rfl (putAt_same hsp rfl rfl) erased_acts
  | tail => exact .stay rfl (fun _ => rfl) erased_acts
  | _ => exact .stay rfl (fun _ => rfl) rfl

theorem step_javas (v : Inv s) (d : Distinct s) (hs : Step s l s' os) :
    Moves (javas s) (javas s') (putJava s) (putJava s') (os.filterMap Event.removed?) := by
  cases hs with
  | create =>
      refine .stay rfl (fun c => (putAt_update rfl c).trans ?_) rfl
      split
      · rename_i hc
        exact (putAt_none (v.objects.fresh c hc.ge)).symm
      · rfl
  | @nativePut t mem now call c sp hc hpc hsp hret =>
      have hst := (v.calls.spawning hc hpc hsp).2
      exact .stay rfl (putAt_same hsp rfl (by rw [hst]; rfl)) rfl
  | @javaPut t mem now call c pid sp hc hpc hsp hpos =>
      have hst := (v.calls.javaPut hc hpc hsp hpos).2.1
      refine .put (javas_update (x := some ⟨call.puppy, c⟩) rfl) ?_ ?_ (fun c' => ?_) ?_
      · rw [javas, d.notPut v hc hpc hsp hpos]
        rfl
      · exact (putAt_some hsp).trans (by rw [hst]; rfl)
      · rw [putJava, putAt_update rfl]
        rfl
      · split <;> rfl
  | remove =>
      exact .take (javas_update (x := none) rfl) (fun _ => rfl) (filterMap_one _ _)
  | spawn _ _ hsp | callback _ hsp | callbackInvoke _ hsp =>
      exact .stay rfl (putAt_same hsp rfl rfl) removed_acts
  | tail => exact .stay rfl (fun _ => rfl) removed_acts
  | _ => exact .stay rfl (fun _ => rfl) rfl

/-- An exit callback takes out the entry of its own child. -/
theorem step_owner (v : Inv s) (d : Distinct s) (hs : Step s l s' os) {q : Int} {c' : ObjId} :
    (.erased q (some c') c ∈ os → c' = c) ∧ (.removed q (some c') c ∈ os → c' = c) := by
  -- the exit callback of a child has its pid
  have own {f : Frame} (hf : s.frame = some f) (hpc : f.pc.ofExit = true) {sp : Spawn}
      (hsp : s.objs c' = some sp) (hb : born sp.child = true)
      (hpid : sp.child.obj.process.pid = f.pid) : c' = f.child := by
    obtain ⟨sp₁, hsp₁, hframe, -⟩ := v.frames.obj f hf
    have hm := v.frames.ofExit f hf hpc
    obtain ⟨hb₁, hpid₁⟩ := hframe (by rw [hm]; decide)
    exact d.one _ _ _ _ hsp hsp₁ hb hb₁ (hpid.trans hpid₁)
  cases hs with
  | erase hf hpc =>
      refine ⟨fun h => ?_, fun h => by cases List.mem_singleton.mp h⟩
      obtain ⟨hq, he, hc⟩ := Event.erased.inj (List.mem_singleton.mp h)
      obtain ⟨sp, hsp, -, hb, hpid⟩ := natives_ok v he.symm
      exact (own hf (by rw [hpc]; rfl) hsp hb hpid).trans hc.symm
  | remove hf hpc =>
      refine ⟨fun h => (by cases List.mem_singleton.mp h), fun h => ?_⟩
      obtain ⟨hq, he, hc⟩ := Event.removed.inj (List.mem_singleton.mp h)
      obtain ⟨sp, hsp, -, hb, hpid⟩ := javas_ok v he.symm
      exact (own hf (by rw [hpc]; rfl) hsp hb hpid).trans hc.symm
  | javaPut => split <;> simp
  | spawn | callback | callbackInvoke | tail => simp
  | _ => simp

/-- The exit event of the child has been raised, and its exit callback is over. -/
structure Over (s : State) (c : ObjId) : Prop where
  ended : ∃ sp, s.objs c = some sp ∧ done sp.child = true
  calm : exiting s c (fun _ => true) = false

/-- It does not come again. -/
theorem step_over (v : Inv s) (o : Over s c) (hs : Step s l s' os) : Over s' c := by
  obtain ⟨sp, hsp, hd⟩ := o.ended
  obtain ⟨sp', hsp', hlater⟩ := step_later v.objects v.calls hs hsp
  refine ⟨⟨sp', hsp', hlater.done hd⟩, Bool.eq_false_iff.mpr fun hx => ?_⟩
  obtain ⟨f, hf, hc, hm, -⟩ := exiting_iff.mp hx
  have old {f₀ : Frame} (hf₀ : s.frame = some f₀) (hc₀ : f₀.child = c)
      (hm₀ : f₀.method = .exit) : False := by
    have hx : exiting s c (fun _ => true) = true := exiting_iff.mpr ⟨f₀, hf₀, hc₀, hm₀, rfl⟩
    rw [o.calm] at hx
    cases hx
  cases hs with
  | @callbackInvoke c₁ i sp₁ ch as k args pid hnone hsp₁ hst hinv =>
      cases hf
      cases hc
      cases hsp.symm.trans hsp₁
      rw [invoked_eq (v.objects.reached _ sp hsp).2 hst, Option.map_eq_some_iff] at hinv
      obtain ⟨⟨k, args⟩, hk, ⟨⟩⟩ := hinv
      cases hm
      rw [done_raised (v.objects.reached _ sp hsp).1 hst hk] at hd
      cases hd
  | jniMove hf₀ | write hf₀ | listener hf₀ | nullPointer hf₀ | remove hf₀ | erase hf₀
  | listenerReturns hf₀ | listenerThrows hf₀ =>
      cases hf
      exact old hf₀ hc hm
  | tail => cases hf
  | _ => exact old hf hc hm

/-- So it takes nothing out any more. -/
theorem Over.takes (o : Over s c) (v : Inv s) (d : Distinct s) (hs : Step s l s' os) :
    c ∉ os.filterMap Event.erased? ∧ c ∉ os.filterMap Event.removed? := by
  have calm {f : Frame} (hf : s.frame = some f) (hpc : f.pc.ofExit = true) : f.child ≠ c := by
    intro hc
    have hx : exiting s c (fun _ => true) = true :=
      exiting_iff.mpr ⟨f, hf, hc, v.frames.ofExit f hf hpc, rfl⟩
    rw [o.calm] at hx
    cases hx
  constructor
  · intro h
    obtain ⟨e, he, hec⟩ := List.mem_filterMap.mp h
    cases e with
    | erased q x c₁ =>
        obtain rfl : x = some c := hec
        obtain rfl := (step_owner v d hs).1 he
        cases hs with
        | erase hf hpc =>
            exact calm hf (by rw [hpc]; rfl)
              (Event.erased.inj (List.mem_singleton.mp he)).2.2.symm
        | javaPut => split at he <;> simp at he
        | _ => simp at he
    | _ => cases hec
  · intro h
    obtain ⟨e, he, hec⟩ := List.mem_filterMap.mp h
    cases e with
    | removed q x c₁ =>
        obtain rfl : x = some c := hec
        obtain rfl := (step_owner v d hs).2 he
        cases hs with
        | remove hf hpc =>
            exact calm hf (by rw [hpc]; rfl)
              (Event.removed.inj (List.mem_singleton.mp he)).2.2.symm
        | javaPut => split at he <;> simp at he
        | _ => simp at he
    | _ => cases hec

/-! ### Whole runs -/

section
variable {puppies : PuppyId → List (Option JString) × StringTable} {h : History Label Event}

theorem run_accounts
    (r : machine.RunWhere (fun s l => pidFresh s l = true) (.init puppies) h s) :
    Account (natives s) (putNative s) (h.outputs.filterMap Event.erased?) ∧
      Account (javas s) (putJava s) (h.outputs.filterMap Event.removed?) := by
  refine r.inv (fun h s => Account (natives s) (putNative s) (h.outputs.filterMap Event.erased?) ∧
    Account (javas s) (putJava s) (h.outputs.filterMap Event.removed?)) ⟨.empty, .empty⟩ ?_
  rintro h s s' l os r - hs ⟨an, aj⟩
  have v := run_inv r
  have d := run_distinct r
  simp only [History.outputs_append, History.outputs_cons, History.outputs_nil, List.append_nil,
    List.filterMap_append]
  exact ⟨an.moves (step_natives v d (step_inv hs).2) fun _ _ _ => natives_one v,
    aj.moves (step_javas v d (step_inv hs).2) fun _ _ _ => javas_one v⟩

/-- **Nothing is lost in the maps.**  In every run in which no pid is reused, each map holds those
children that were put in it and have not been taken out; each was taken out once at most, and by
its own exit callback. -/
theorem entries_accounted
    (r : machine.RunWhere (fun s l => pidFresh s l = true) (.init puppies) h s) :
    Account (natives s) (putNative s) (h.outputs.filterMap Event.erased?) ∧
      Account (javas s) (putJava s) (h.outputs.filterMap Event.removed?) ∧
      ∀ q c c', (.erased q (some c') c ∈ h.outputs → c' = c) ∧
        (.removed q (some c') c ∈ h.outputs → c' = c) := by
  obtain ⟨an, aj⟩ := run_accounts r
  refine ⟨an, aj, ?_⟩
  refine r.inv (fun h _ => ∀ q c c', (.erased q (some c') c ∈ h.outputs → c' = c) ∧
    (.removed q (some c') c ∈ h.outputs → c' = c)) (by simp) ?_
  intro h s s' l os r _ hs own q c c'
  have v := run_inv r
  have d := run_distinct r
  have hs := (step_inv hs).2
  simp only [History.outputs_append, History.outputs_cons, History.outputs_nil, List.append_nil,
    List.mem_append]
  exact ⟨fun hm => hm.elim (own q c c').1 (step_owner v d hs).1,
    fun hm => hm.elim (own q c c').2 (step_owner v d hs).2⟩

/-- Two children of one `DoryProcess`; the exit of the first is over. -/
theorem entries_accounted_example : ∃ h s,
    machine.RunWhere (fun s l => pidFresh s l = true) (.init examplePuppies) h s ∧
    h.outputs.filterMap Event.erased? = [0] ∧ natives s 8 = some 1 ∧
    Account (natives s) (putNative s) [0] := by
  have r := Machine.execWhere_run (M := machine) (C := fun s l => pidFresh s l)
    (s := .init examplePuppies)
    (startsWith (.caller 0) 0 7 ++ startsWith (.caller 0) 0 8 ++ exits 0) rfl
  exact ⟨_, _, r, rfl, rfl, (entries_accounted r).1⟩

/-- **What is left behind stays for ever.**  When no pid is reused and the exit callback of a child
is over, what it has not taken out of a map is never taken out, also when it is put in only then. -/
theorem left_behind_stays
    (r : machine.RunWhere (fun s l => pidFresh s l = true) (.init puppies) h s)
    (o : Over s c) {k : History Label Event}
    (r' : machine.RunWhere (fun s l => pidFresh s l = true) s k s') :
    (Listed (natives s') c ↔ putNative s' c = true ∧ c ∉ h.outputs.filterMap Event.erased?) ∧
      (Listed (javas s') c ↔ putJava s' c = true ∧
        c ∉ h.outputs.filterMap Event.removed?) := by
  have hover : Over s' c ∧ c ∉ k.outputs.filterMap Event.erased? ∧
      c ∉ k.outputs.filterMap Event.removed? := by
    refine r'.inv (fun k s' => Over s' c ∧ c ∉ k.outputs.filterMap Event.erased? ∧
      c ∉ k.outputs.filterMap Event.removed?) ⟨o, by simp, by simp⟩ ?_
    rintro k s₁ s₂ l os rk - hs ⟨o₁, hn, hj⟩
    have v := run_inv (r.trans rk)
    obtain ⟨hn', hj'⟩ := o₁.takes v (run_distinct (r.trans rk)) (step_inv hs).2
    refine ⟨step_over v o₁ (step_inv hs).2, ?_, ?_⟩
    · rw [History.outputs_append, List.filterMap_append, List.mem_append, not_or]
      exact ⟨hn, by simpa using hn'⟩
    · rw [History.outputs_append, List.filterMap_append, List.mem_append, not_or]
      exact ⟨hj, by simpa using hj'⟩
  obtain ⟨an, aj⟩ := run_accounts (r.trans r')
  rw [an.listed, aj.listed]
  simp only [History.outputs_append, List.filterMap_append, List.mem_append, hover.2.1,
    hover.2.2, or_false, and_self]

/-- The exit callback of the child is over before it is put in. -/
theorem left_behind_stays_example : ∃ h s k s',
    machine.RunWhere (fun s l => pidFresh s l = true) (.init examplePuppies) h s ∧
    Over s 0 ∧ putNative s 0 = false ∧
    machine.RunWhere (fun s l => pidFresh s l = true) s k s' ∧ Listed (natives s') 0 := by
  have r := Machine.execWhere_run (M := machine) (C := fun s l => pidFresh s l)
    (s := .init examplePuppies) (spawnsWith (.caller 0) 0 7 ++
      [.callback 0 (.stderrCb UV_EOF []), .callback 0 (.exitCb 0 0), .jni 0, .jni 0, .jni 0,
        .jni 0]) rfl
  refine ⟨_, _, _, _, r, ⟨⟨_, rfl, rfl⟩, rfl⟩, rfl,
    Machine.execWhere_run [go (.caller 0), go (.caller 0)] rfl, ?_⟩
  exact (left_behind_stays r ⟨⟨_, rfl, rfl⟩, rfl⟩
    (Machine.execWhere_run [go (.caller 0), go (.caller 0)] rfl)).1.mpr ⟨rfl, by decide⟩

end

end Dorypuppy.Manager
