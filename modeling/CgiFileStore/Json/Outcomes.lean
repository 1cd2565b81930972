import CgiFileStore.Json.Pointers

/-!
# Runs of the parser in memory

A run of the parser in memory next to a run of the parser for texts. `Outcome` says how both end,
and there is a rule for each kind of step.
-/

namespace CgiFileStore.Json

open CSem Heap

variable {D β β' γ γ' : Type} {grants : Nat → Bool} {m m' : Mem (Stored D)}

/-- How a run in memory ends, next to the run `x` without memory. It has the same faults. Where it
does not fall short of memory it fails or returns as `x` does, and what it leaves is `lost` if it
fails, and `done` if it returns. -/
inductive Outcome (grants : Nat → Bool) (m : Mem (Stored D)) (lost : Mem (Stored D) → Prop)
    (done : β → γ → Mem (Stored D) → Prop) (x : Parse β) :
    Except Halt (Except (Option (List Byte)) γ × Mem (Stored D)) → Prop
  | halted (f : Fault) (hx : x = .error (.fault f)) :
      Outcome grants m lost done x (.error (.text f))
  | failed (ep : Option (List Byte)) (m' : Mem (Stored D)) (hx : x = .error (.failed ep))
      (hgranted : Granted grants m.calls m'.calls) (h : lost m') :
      Outcome grants m lost done x (.ok (.error ep, m'))
  | refused (m' : Mem (Stored D)) (hrefused : Refused grants m.calls m'.calls) (h : lost m') :
      Outcome grants m lost done x (.ok (.error none, m'))
  | returned (b : β) (c : γ) (m' : Mem (Stored D)) (hx : x = .ok b)
      (hgranted : Granted grants m.calls m'.calls) (h : done b c m') :
      Outcome grants m lost done x (.ok (.ok c, m'))

variable {lost lost' : Mem (Stored D) → Prop} {done : β → γ → Mem (Stored D) → Prop}
  {done' : β' → γ' → Mem (Stored D) → Prop} {x : Parse β} {y : CellParse D γ}

/-! ## Runs one after the other -/

theorem bind_halted {e : Halt} (h : y m = .error e) (g : γ → CellParse D γ') :
    (y >>= g) m = .error e := by
  simp [bind, ExceptT.bind, ExceptT.mk, StateT.bind, Except.bind, h]

theorem bind_failed {ep : Option (List Byte)} (h : y m = .ok (.error ep, m'))
    (g : γ → CellParse D γ') : (y >>= g) m = .ok (.error ep, m') := by
  simp [bind, ExceptT.bind, ExceptT.mk, StateT.bind, ExceptT.bindCont, Except.bind, h, pure,
    StateT.pure, Except.pure]

theorem bind_returned {c : γ} (h : y m = .ok (.ok c, m')) (g : γ → CellParse D γ') :
    (y >>= g) m = g c m' := by
  simp [bind, ExceptT.bind, ExceptT.mk, StateT.bind, ExceptT.bindCont, Except.bind, h]

namespace Outcome

/-- What was granted in front of a run does not change how it ends. -/
theorem after {r : Except Halt (Except (Option (List Byte)) γ × Mem (Stored D))}
    (hgranted : Granted grants m.calls m'.calls) (h : Outcome grants m' lost done x r) :
    Outcome grants m lost done x r := by
  cases h with
  | halted f hx => exact .halted f hx
  | failed ep m'' hx h hl => exact .failed ep m'' hx (hgranted.trans h) hl
  | refused m'' h hl => exact .refused m'' (hgranted.refused h) hl
  | returned b c m'' hx h hd => exact .returned b c m'' hx (hgranted.trans h) hd

theorem mono {r : Except Halt (Except (Option (List Byte)) γ × Mem (Stored D))}
    {done' : β → γ → Mem (Stored D) → Prop} (h : Outcome grants m lost done x r)
    (hlost : ∀ m', lost m' → lost' m') (hdone : ∀ b c m', done b c m' → done' b c m') :
    Outcome grants m lost' done' x r := by
  cases h with
  | halted f hx => exact .halted f hx
  | failed ep m'' hx h hl => exact .failed ep m'' hx h (hlost m'' hl)
  | refused m'' h hl => exact .refused m'' h (hlost m'' hl)
  | returned b c m'' hx h hd => exact .returned b c m'' hx h (hdone b c m'' hd)

theorem imp_lost {r : Except Halt (Except (Option (List Byte)) γ × Mem (Stored D))}
    (h : Outcome grants m lost done x r) (hlost : ∀ m', lost m' → lost' m') :
    Outcome grants m lost' done x r := h.mono hlost fun _ _ _ hd => hd

theorem bind {f : β → Parse β'} {g : γ → CellParse D γ'} (h : Outcome grants m lost done x (y m))
    (hf : ∀ b c m', done b c m' → Outcome grants m' lost done' (f b) (g c m')) :
    Outcome grants m lost done' (x >>= f) ((y >>= g) m) := by
  generalize hr : y m = r at h
  cases h with
  | halted e hx =>
    rw [bind_halted hr, hx]
    exact .halted e rfl
  | failed ep m' hx hgranted hl =>
    rw [bind_failed hr, hx]
    exact .failed ep m' rfl hgranted hl
  | refused m' hrefused hl =>
    rw [bind_failed hr]
    exact .refused m' hrefused hl
  | returned b c m' hx hgranted hd =>
    rw [bind_returned hr, hx]
    exact (hf b c m' hd).after hgranted

/-- Where the run without memory goes on with what it has been given. -/
theorem map {r : Except Halt (Except (Option (List Byte)) γ × Mem (Stored D))}
    {done' : β' → γ → Mem (Stored D) → Prop} {f : β → Parse β'}
    (h : Outcome grants m lost done x r)
    (hf : ∀ b c m', done b c m' → ∃ b', f b = .ok b' ∧ done' b' c m') :
    Outcome grants m lost done' (x >>= f) r := by
  cases h with
  | halted e hx =>
    rw [hx]
    exact .halted e rfl
  | failed ep m' hx hgranted hl =>
    rw [hx]
    exact .failed ep m' rfl hgranted hl
  | refused m' hrefused hl => exact .refused m' hrefused hl
  | returned b c m' hx hgranted hd =>
    obtain ⟨b', hb', hd'⟩ := hf b c m' hd
    rw [hx]
    exact .returned b' c m' hb' hgranted hd'

/-- A step that only reads the text. -/
theorem text {z : Parse γ} {f : γ → Parse β'} {g : γ → CellParse D γ'}
    (hlost : ∀ ep, z = .error (.failed ep) → lost m)
    (hf : ∀ b, z = .ok b → Outcome grants m lost done' (f b) (g b m)) :
    Outcome grants m lost done' (z >>= f) ((Json.text z >>= g) m) := by
  have h : Outcome grants m lost (fun b c m' => b = c ∧ z = .ok b ∧ m' = m) z
      (Json.text z m) := by
    match z with
    | .ok b => exact .returned b b m rfl (.refl _) ⟨rfl, rfl, rfl⟩
    | .error (.failed ep) => exact .failed ep m rfl (.refl _) (hlost ep rfl)
    | .error (.fault e) => exact .halted e rfl
  refine h.bind ?_
  rintro b _ _ ⟨rfl, hb, rfl⟩
  exact hf b hb

/-- A step that only works on the memory. -/
theorem cells {z : CellProg D γ} {c : γ} {g : γ → CellParse D γ'} {x : Parse β'}
    (hz : z m = .ok (c, m')) (hcalls : m'.calls = m.calls)
    (h : Outcome grants m' lost done' x (g c m')) :
    Outcome grants m lost done' x ((Json.cells z >>= g) m) := by
  have hrun : Json.cells z m = .ok (.ok c, m') := by rw [Json.cells, hz]
  rw [bind_returned hrun]
  exact h.after (hcalls ▸ .refl _)

/-- A new block, or no memory. -/
theorem malloc {v : Stored D} {g : Addr → CellParse D γ'} {x : Parse β'}
    (hlost : lost { m with calls := m.calls + 1 })
    (h : Outcome grants (m.push v) lost done' x (g m.size (m.push v))) :
    Outcome grants m lost done' x ((notNull (Heap.malloc grants v) >>= g) m) := by
  by_cases hgrant : grants m.calls = true
  · have hcells : Json.cells (Heap.malloc grants v) m = .ok (.ok (some m.size), m.push v) := by
      rw [Json.cells, malloc_granted hgrant]
    have hrun : notNull (Heap.malloc grants v) m = .ok (.ok m.size, m.push v) :=
      bind_returned hcells _
    rw [bind_returned hrun]
    exact h.after (.single hgrant)
  · have hcells : Json.cells (Heap.malloc grants v) m =
        .ok (.ok none, { m with calls := m.calls + 1 }) := by
      rw [Json.cells, malloc_refused hgrant]
    have hrun : notNull (Heap.malloc grants v) m =
        .ok (.error none, { m with calls := m.calls + 1 }) := bind_returned hcells _
    rw [bind_failed hrun]
    exact .refused _ ⟨m.calls, rfl, .refl _, by simpa using hgrant⟩ hlost

end Outcome

/-! ## Deleting what a failed run leaves -/

theorem orDelete_halted {e : Halt} (h : y m = .error e) (c : Addr) :
    orDelete c y m = .error e := by
  simp [orDelete, tryCatch, tryCatchThe, MonadExceptOf.tryCatch, ExceptT.tryCatch, ExceptT.mk,
    bind, StateT.bind, Except.bind, h]

theorem orDelete_returned {r : γ} (h : y m = .ok (.ok r, m')) (c : Addr) :
    orDelete c y m = .ok (.ok r, m') := by
  simp [orDelete, tryCatch, tryCatchThe, MonadExceptOf.tryCatch, ExceptT.tryCatch, ExceptT.mk,
    bind, StateT.bind, Except.bind, h, pure, StateT.pure, Except.pure]

theorem orDelete_failed {ep : Option (List Byte)} {c : Addr} {m'' : Mem (Stored D)}
    (h : y m = .ok (.error ep, m')) (hdelete : cJSONDelete (some c) m' = .ok ((), m'')) :
    orDelete c y m = .ok (.error ep, m'') := by
  have hcells : cells (cJSONDelete (some c)) m' = .ok (.ok (), m'') := by rw [cells, hdelete]
  have hthrow : (do cells (cJSONDelete (some c)); throw ep : CellParse D γ) m' =
      .ok (.error ep, m'') := bind_returned hcells _
  simp only [orDelete, tryCatch, tryCatchThe, MonadExceptOf.tryCatch, ExceptT.tryCatch, ExceptT.mk]
  simp only [bind, StateT.bind, h, Except.bind]
  exact hthrow

theorem Outcome.orDelete {c : Addr} (h : Outcome grants m lost done x (y m))
    (hdelete : ∀ m', lost m' →
      ∃ m'', cJSONDelete (some c) m' = .ok ((), m'') ∧ m''.calls = m'.calls ∧ lost' m'') :
    Outcome grants m lost' done x (Json.orDelete c y m) := by
  generalize hr : y m = r at h
  cases h with
  | halted f hx =>
    rw [orDelete_halted hr]
    exact .halted f hx
  | failed ep m' hx hgranted hl =>
    obtain ⟨m'', hm, hcalls, hl'⟩ := hdelete m' hl
    rw [orDelete_failed hr hm]
    exact .failed ep m'' hx (hcalls ▸ hgranted) hl'
  | refused m' hrefused hl =>
    obtain ⟨m'', hm, hcalls, hl'⟩ := hdelete m' hl
    rw [orDelete_failed hr hm]
    exact .refused m'' (hcalls ▸ hrefused) hl'
  | returned b c m' hx hgranted hd =>
    rw [orDelete_returned hr]
    exact .returned b c m' hx hgranted hd

end CgiFileStore.Json
