import Mathlib.Logic.Function.Basic
import Mathlib.Data.List.AList

/-!
# Support — the account of a table

A table maps keys to owners.  Owners are put in, and whoever is at a key is taken out.

* `Account m put taken`: the table holds those that were put in and have not been taken out, and
  nobody was taken out twice.
* `Account.step`: a change of the table keeps its account, when nobody is put in twice and nobody is
  at two keys.
* `Account.length_eq`: the entries of the table and those that were taken out are as many as were
  put in.
-/

namespace Support

open Function (update update_self update_of_ne)

variable {κ ω : Type}

/-- The owner is in the table. -/
def Listed (m : κ → Option ω) (o : ω) : Prop := ∃ k, m k = some o

structure Account (m : κ → Option ω) (put : ω → Bool) (taken : List ω) : Prop where
  listed : ∀ o, Listed m o ↔ put o = true ∧ o ∉ taken
  mine : ∀ o ∈ taken, put o = true
  once : taken.Nodup

theorem Account.empty : Account (fun _ : κ => none) (fun _ : ω => false) [] :=
  ⟨fun o => by simp [Listed], by simp, .nil⟩

variable [DecidableEq κ]

/-- A change of the table, with who is put in and who is taken out. -/
inductive TableChange (m : κ → Option ω) : (κ → Option ω) → Option ω → Option ω → Prop where
  | stay : TableChange m m none none
  | put (k : κ) (o : ω) : m k = none → TableChange m (update m k (some o)) (some o) none
  | take (k : κ) : TableChange m (update m k none) none (m k)

variable {m m' : κ → Option ω} {x y : Option ω} {f f' : ω → Bool} {taken gone : List ω}

theorem listed_put {k : κ} {o : ω} (hk : m k = none) (o' : ω) :
    Listed (update m k (some o)) o' ↔ Listed m o' ∨ o = o' := by
  constructor
  · rintro ⟨k', h⟩
    by_cases he : k' = k
    · rw [he, update_self] at h
      exact .inr (Option.some.inj h)
    · rw [update_of_ne he] at h
      exact .inl ⟨k', h⟩
  · rintro (⟨k', h⟩ | rfl)
    · refine ⟨k', ?_⟩
      rw [update_of_ne, h]
      rintro rfl
      rw [hk] at h
      cases h
    · exact ⟨k, update_self ..⟩

theorem listed_take {k : κ} (one : ∀ k k' o, m k = some o → m k' = some o → k = k') (o : ω) :
    Listed (update m k none) o ↔ Listed m o ∧ m k ≠ some o := by
  constructor
  · rintro ⟨k', h⟩
    have he : k' ≠ k := by
      rintro rfl
      rw [update_self] at h
      cases h
    rw [update_of_ne he] at h
    exact ⟨⟨k', h⟩, fun hk => he (one _ _ _ h hk)⟩
  · rintro ⟨⟨k', h⟩, hk⟩
    refine ⟨k', ?_⟩
    rw [update_of_ne, h]
    rintro rfl
    exact hk h

/-- A change keeps the account. -/
theorem Account.step (a : Account m f taken) (c : TableChange m m' x y)
    (one : ∀ k k' o, m k = some o → m k' = some o → k = k')
    (first : ∀ o, x = some o → f o = false)
    (puts : ∀ o, f' o = true ↔ f o = true ∨ x = some o) :
    Account m' f' (taken ++ y.toList) := by
  cases c with
  | stay =>
      obtain rfl : f' = f := funext fun o => Bool.eq_iff_iff.mpr (by simp [puts o])
      simpa using a
  | put k o hk =>
      have hnot : o ∉ taken := fun ho => by
        have hput := a.mine o ho
        rw [first o rfl] at hput
        cases hput
      refine ⟨fun o' => ?_, fun o' ho' => ?_, by simpa using a.once⟩
      · rw [listed_put hk, a.listed, puts]
        simp only [Option.toList_none, List.append_nil, Option.some.injEq]
        constructor
        · rintro (⟨h, hn⟩ | rfl)
          · exact ⟨.inl h, hn⟩
          · exact ⟨.inr rfl, hnot⟩
        · rintro ⟨h | h, hn⟩
          · exact .inl ⟨h, hn⟩
          · exact .inr h
      · exact (puts o').mpr (.inl (a.mine o' (by simpa using ho')))
  | take k =>
      obtain rfl : f' = f := funext fun o => Bool.eq_iff_iff.mpr (by simp [puts o])
      refine ⟨fun o => ?_, fun o ho => ?_, ?_⟩
      · rw [listed_take one, a.listed, List.mem_append, Option.mem_toList, not_or, and_assoc]
      · rw [List.mem_append, Option.mem_toList] at ho
        exact ho.elim (a.mine o) fun hk => ((a.listed o).mp ⟨k, hk⟩).1
      · -- whoever is at the key has not been taken out
        refine a.once.append ?_ fun o ho hk => ?_
        · cases m k <;> simp
        · rw [Option.mem_toList] at hk
          exact ((a.listed o).mp ⟨k, hk⟩).2 ho

/-- What a step does to a table: who is put in, who is taken out. -/
def Moves (m m' : κ → Option ω) (f f' : ω → Bool) (taken : List ω) : Prop :=
  ∃ x y, TableChange m m' x y ∧ taken = y.toList ∧ (∀ o, x = some o → f o = false) ∧
    ∀ o, f' o = true ↔ f o = true ∨ x = some o

theorem Moves.stay (hm : m' = m) (hput : ∀ o, f' o = f o) (ht : gone = []) :
    Moves m m' f f' gone := by
  subst hm
  exact ⟨none, none, .stay, ht, nofun, fun o => by rw [hput]; simp⟩

theorem Moves.put [DecidableEq ω] {k : κ} {o : ω} (hm : m' = update m k (some o))
    (hfree : m k = none) (ho : f o = false)
    (hput : ∀ o', f' o' = if o' = o then true else f o') (ht : gone = []) :
    Moves m m' f f' gone := by
  subst hm
  refine ⟨some o, none, .put k o hfree, ht, fun o' h => by cases h; exact ho, fun o' => ?_⟩
  rw [hput]
  split
  · rename_i h
    simp [h]
  · rename_i h
    simp [Ne.symm h]

theorem Moves.take {k : κ} (hm : m' = update m k none) (hput : ∀ o, f' o = f o)
    (ht : gone = (m k).toList) : Moves m m' f f' gone := by
  subst hm
  exact ⟨none, m k, .take k, ht, nofun, fun o => by rw [hput]; simp⟩

theorem Account.moves (a : Account m f taken) (h : Moves m m' f f' gone)
    (one : ∀ k k' o, m k = some o → m k' = some o → k = k') : Account m' f' (taken ++ gone) := by
  obtain ⟨x, y, hc, rfl, hfirst, hput⟩ := h
  exact a.step hc one hfirst hput

/-- As many have come in as are there and have gone. -/
theorem Account.length_eq {t : AList fun _ : κ => ω} (a : Account (fun k => t.lookup k) f taken)
    (one : ∀ k k' o, t.lookup k = some o → t.lookup k' = some o → k = k') {all : List ω}
    (hn : all.Nodup) (hall : ∀ o, o ∈ all ↔ f o = true) :
    t.entries.length + taken.length = all.length := by
  have hmem (o : ω) : o ∈ t.entries.map Sigma.snd ↔ Listed (fun k => t.lookup k) o := by
    rw [List.mem_map]
    constructor
    · rintro ⟨⟨k, o⟩, h, rfl⟩
      exact ⟨k, AList.mem_lookup_iff.mpr h⟩
    · rintro ⟨k, h⟩
      exact ⟨⟨k, o⟩, AList.mem_lookup_iff.mp h, rfl⟩
  have hnodup : (t.entries.map Sigma.snd).Nodup := by
    refine List.Nodup.map_on ?_ t.nodupKeys.nodup
    rintro ⟨k, o⟩ h ⟨k', o'⟩ h' rfl
    rw [one k k' o (AList.mem_lookup_iff.mpr h) (AList.mem_lookup_iff.mpr h')]
  have hperm : (t.entries.map Sigma.snd ++ taken).Perm all := by
    rw [List.perm_ext_iff_of_nodup _ hn]
    · intro o
      rw [List.mem_append, hmem, a.listed, hall]
      constructor
      · rintro (⟨h, -⟩ | h)
        · exact h
        · exact a.mine o h
      · intro h
        by_cases ho : o ∈ taken
        · exact .inr ho
        · exact .inl ⟨h, ho⟩
    · refine hnodup.append a.once fun o ho ht => ?_
      exact ((a.listed o).mp ((hmem o).mp ho)).2 ht
  rw [← hperm.length_eq, List.length_append, List.length_map]

end Support
