import Mathlib.Data.List.Basic

/-!
# Writers and readers of a text

A reader takes its text from the front of an input, a writer puts its text behind an output. Both
hand on a frame, and both may fail. `Reads` and `Writes` say what they do with one text; the rules
follow how readers and writers are put together.
-/
namespace NetStorm
namespace RoundTrip
variable {σ ε τ φ α β : Type}

/-- A state that is read from. -/
class Source (σ : Type) (τ φ : outParam Type) where
  input : σ → List τ
  frame : σ → φ

/-- A state that is written to. -/
class Sink (σ : Type) (τ φ : outParam Type) where
  output : σ → List τ
  frame : σ → φ

/-- Runs `body` as long as it gives a next value. More than `fuel` runs are stuck. -/
def whileSome (stuck : ε) (body : α → StateT σ (Except ε) (Option α)) :
    ℕ → α → StateT σ (Except ε) α
  | 0, _ => throw stuck
  | fuel + 1, a => do
    match ← body a with
    | none => return a
    | some a => whileSome stuck body fuel a

section Run
variable {s : σ}

@[simp] theorem bind_apply (r : StateT σ (Except ε) α) (k : α → StateT σ (Except ε) β) :
    (r >>= k) s = r s >>= fun p => k p.1 p.2 := rfl

@[simp] theorem map_apply (r : StateT σ (Except ε) α) (g : α → β) :
    (g <$> r) s = r s >>= fun p => pure (g p.1, p.2) := rfl

@[simp] theorem pure_apply (a : α) : (pure a : StateT σ (Except ε) α) s = .ok (a, s) := rfl

@[simp] theorem get_apply : (get : StateT σ (Except ε) σ) s = .ok (s, s) := rfl

@[simp] theorem set_apply (s' : σ) : (set s' : StateT σ (Except ε) PUnit) s = .ok ((), s') := rfl

@[simp] theorem modify_apply (g : σ → σ) :
    (modify g : StateT σ (Except ε) PUnit) s = .ok ((), g s) := rfl

@[simp] theorem ok_bind {p : α} (k : α → Except ε β) : (Except.ok p >>= k) = k p := rfl

end Run

section Reads
variable [Source σ τ φ]

/-- The fuel of a loop that reads in every pass. -/
def perInput (r : ℕ → StateT σ (Except ε) α) : StateT σ (Except ε) α :=
  fun s => r (Source.input s).length s

/-- The reader takes `text` from the front, if what stands behind it is as `follow` says. -/
def Reads (r : StateT σ (Except ε) α) (f f' : φ) (text : List τ) (follow : List τ → Prop)
    (a : α) : Prop :=
  ∀ s rest, Source.input s = text ++ rest → Source.frame s = f → follow rest →
    ∃ s', r s = .ok (a, s') ∧ Source.input s' = rest ∧ Source.frame s' = f'

variable {r : StateT σ (Except ε) α} {k : α → StateT σ (Except ε) β} {f f₁ f₂ : φ}
  {t u : List τ} {F G : List τ → Prop} {a : α} {b : β} {stuck : ε}
  {body : α → StateT σ (Except ε) (Option α)} {fuel : ℕ} {a₁ a₂ : α}

theorem Reads.pure : Reads (Pure.pure a : StateT σ (Except ε) α) f f [] F a := by
  intro s rest hs hf _
  exact ⟨s, rfl, hs, hf⟩

theorem Reads.bind (h : Reads r f f₁ t F a) (hk : Reads (k a) f₁ f₂ u G b)
    (hF : ∀ rest, G rest → F (u ++ rest)) : Reads (r >>= k) f f₂ (t ++ u) G b := by
  intro s rest hs hf hrest
  rw [List.append_assoc] at hs
  obtain ⟨s₁, hr, hs₁, hf₁⟩ := h s _ hs hf (hF rest hrest)
  obtain ⟨s₂, hk, hs₂, hf₂⟩ := hk s₁ rest hs₁ hf₁ hrest
  apply Exists.intro s₂
  constructor
  · calc (r >>= k) s = (r s >>= fun p => k p.1 p.2) := rfl
      _ = .ok (b, s₂) := by rw [hr]; exact hk
  · exact ⟨hs₂, hf₂⟩

theorem Reads.bind_pure (h : Reads r f f₁ t F a) {g : α → β} :
    Reads (r >>= fun a => Pure.pure (g a)) f f₁ t F (g a) := by
  have hbind := h.bind (k := fun a => Pure.pure (g a)) (G := F) Reads.pure fun rest hrest => hrest
  rwa [List.append_nil] at hbind

theorem Reads.map (h : Reads r f f₁ t F a) {g : α → β} : Reads (g <$> r) f f₁ t F (g a) := by
  rw [map_eq_pure_bind]
  exact h.bind_pure

theorem Reads.follow (h : Reads r f f₁ t F a) (hF : ∀ rest, G rest → F rest) :
    Reads r f f₁ t G a := fun s rest hs hf hrest => h s rest hs hf (hF rest hrest)

theorem Reads.perInput {r : ℕ → StateT σ (Except ε) α}
    (h : ∀ n, t.length ≤ n → Reads (r n) f f₁ t F a) : Reads (perInput r) f f₁ t F a := by
  intro s rest hs hf hrest
  exact h _ (by rw [hs, List.length_append]; exact Nat.le_add_right _ _) s rest hs hf hrest

theorem whileSome_succ : whileSome stuck body (fuel + 1) a =
    body a >>= fun o => o.elim (Pure.pure a) (whileSome stuck body fuel) := by
  rw [whileSome]
  congr 1
  ext o : 1
  cases o <;> rfl

/-- The loop ends when its body gives no next value. -/
theorem Reads.while_none (h : Reads (body a) f f₁ t F none) :
    Reads (whileSome stuck body (fuel + 1) a) f f₁ t F a := by
  rw [whileSome_succ, ← List.append_nil t]
  apply h.bind (G := F) (b := a)
  · exact Reads.pure
  · exact fun rest hrest => hrest

/-- The loop goes on behind one pass. -/
theorem Reads.while_some (h : Reads (body a) f f₁ t F (some a₁))
    (hloop : Reads (whileSome stuck body fuel a₁) f₁ f₂ u G a₂)
    (hF : ∀ rest, G rest → F (u ++ rest)) :
    Reads (whileSome stuck body (fuel + 1) a) f f₂ (t ++ u) G a₂ := by
  rw [whileSome_succ]
  exact h.bind hloop hF

end Reads

section Writes
variable [Sink σ τ φ]

/-- The writer puts `text` behind the output. -/
def Writes (w : StateT σ (Except ε) Unit) (f f' : φ) (text : List τ) : Prop :=
  ∀ s, Sink.frame s = f →
    ∃ s', w s = .ok ((), s') ∧ Sink.output s' = Sink.output s ++ text ∧ Sink.frame s' = f'

variable {w w' : StateT σ (Except ε) Unit} {f f₁ f₂ : φ} {t u : List τ}

theorem Writes.pure : Writes (Pure.pure () : StateT σ (Except ε) Unit) f f [] := by
  intro s hf
  exact ⟨s, rfl, (List.append_nil _).symm, hf⟩

theorem Writes.seq (h : Writes w f f₁ t) (h' : Writes w' f₁ f₂ u) :
    Writes (do w; w') f f₂ (t ++ u) := by
  intro s hf
  obtain ⟨s₁, hw, ht, hf₁⟩ := h s hf
  obtain ⟨s₂, hw', hu, hf₂⟩ := h' s₁ hf₁
  apply Exists.intro s₂
  constructor
  · calc (do w; w') s = (w s >>= fun p => w' p.2) := rfl
      _ = .ok ((), s₂) := by rw [hw]; exact hw'
  · exact ⟨by rw [hu, ht, List.append_assoc], hf₂⟩

end Writes

end RoundTrip
end NetStorm
