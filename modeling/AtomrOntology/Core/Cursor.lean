import AtomrOntology.Core.Slices

/-!
# Reading by offsets

A reader that addresses a text by byte offsets returns a result or an error, unless an index is
out of bounds or no character ends there. It is compared with a reader that is handed the text
itself; loops over bytes are compared with recursions over characters.
-/

namespace AtomrOntology

variable {ε α β : Type}

/-- What a computation returns, unless an index is out of bounds on the way. -/
abbrev Checked (ε : Type) := ExceptT ε Option

/-- An index within bounds changes nothing. -/
theorem Checked.lift_bind {o : Option α} {a : α} (h : o = some a) (f : α → Checked ε β) :
    (monadLift o >>= f) = f a := by
  rw [h]
  rfl

/-- A checked computation does what an unchecked one does. Where it goes out of bounds, the
other one fails with an error of its own. -/
inductive Agrees (stops : ε → Prop) (R : α → β → Prop) : Checked ε α → Except ε β → Prop
  | error {e : ε} (h : ¬stops e) : Agrees stops R (throw e) (.error e)
  | stop {e : ε} (h : stops e) : Agrees stops R (ExceptT.mk none) (.error e)
  | ok {a : α} {b : β} (h : R a b) : Agrees stops R (pure a) (.ok b)

/-- Computations that agree go on as computations that agree. -/
theorem Agrees.bind {α' β' : Type} {stops : ε → Prop} {R : α → β → Prop} {S : α' → β' → Prop}
    {x : Checked ε α} {y : Except ε β} {f : α → Checked ε α'} {g : β → Except ε β'}
    (h : Agrees stops R x y) (hnext : ∀ a b, y = .ok b → R a b → Agrees stops S (f a) (g b)) :
    Agrees stops S (x >>= f) (y >>= g) := by
  cases h with
  | error h => exact .error h
  | stop h => exact .stop h
  | ok h => exact hnext _ _ rfl h

/-- The result may be put together in the end. -/
theorem Agrees.finish {γ : Type} {stops : ε → Prop} {R : α → β → Prop} {S : α → γ → Prop}
    {x : Checked ε α} {y : Except ε β} {g : β → γ} (h : Agrees stops R x y)
    (hS : ∀ a b, R a b → S a (g b)) : Agrees stops S x (y >>= fun b => .ok (g b)) := by
  cases h with
  | error h => exact .error h
  | stop h => exact .stop h
  | ok h => exact .ok (hS _ _ h)

/-- Something may be returned along with the result. -/
theorem Agrees.along {γ : Type} {stops : ε → Prop} {R : α → β → Prop} {S : γ → β → Prop}
    {x : Checked ε α} {y : Except ε β} {f : α → γ} (h : Agrees stops R x y)
    (hS : ∀ a b, R a b → S (f a) b) : Agrees stops S (x >>= fun a => pure (f a)) y := by
  cases h with
  | error h => exact .error h
  | stop h => exact .stop h
  | ok h => exact .ok (hS _ _ h)

/-- A computation goes out of bounds exactly if the other one fails with such an error. -/
theorem Agrees.eq_none_iff {stops : ε → Prop} {R : α → β → Prop} {x : Checked ε α}
    {y : Except ε β} (h : Agrees stops R x y) : x.run = none ↔ ∃ e, y = .error e ∧ stops e := by
  cases h with
  | error h => simpa [ExceptT.run, throw, throwThe, MonadExceptOf.throw, ExceptT.mk] using h
  | stop h => simpa [ExceptT.run, ExceptT.mk] using h
  | ok h => simp [ExceptT.run, pure, ExceptT.pure, ExceptT.mk]

/-- The same result, and the offset at which the rest begins. -/
def AtOffset (src : List Char) (a : α × Nat) (b : α × List Char) : Prop :=
  a.1 = b.1 ∧ sliceFrom a.2 src = some b.2

/-- A byte as a character. -/
def byteAsChar (b : UInt8) : Char := Char.ofNat b.toNat

/-- A loop that takes each byte but some delimiters as a character does so with a run of them. -/
theorem loop_run {bytes run : List UInt8} {kind : UInt8 → Prop} (loop : Nat → List Char → β)
    (hstep : ∀ i lexical b, bytes[i]? = some b → kind b →
      loop i lexical = loop (i + 1) (lexical ++ [byteAsChar b]))
    {i : Nat} (lexical : List Char) (hrun : run <+: bytes.drop i) (hkind : ∀ b ∈ run, kind b) :
    loop i lexical = loop (i + run.length) (lexical ++ run.map byteAsChar) := by
  induction run generalizing i lexical with
  | nil => simp
  | cons b run ih =>
    obtain ⟨more, hmore⟩ := hrun
    have hb : bytes[i]? = some b := by
      rw [← List.head?_drop, ← hmore]
      rfl
    have hrest : run <+: bytes.drop (i + 1) := by
      rw [← List.drop_drop, ← hmore]
      exact List.prefix_append run more
    rw [hstep i lexical b hb (hkind b List.mem_cons_self),
      ih _ hrest fun d hd => hkind d (List.mem_cons_of_mem b hd)]
    simp [Nat.add_comm, Nat.add_left_comm]

/-- Such a loop takes a character for its bytes. -/
theorem loop_char (delimiters : List Char) {input back : List Char} {c : Char} {i : Nat}
    (h : sliceFrom i input = some (c :: back)) (loop : Nat → List Char → β)
    (hstep : ∀ i lexical b, (utf8 (.ofList input))[i]? = some b →
      (∀ d ∈ delimiters, b ≠ d.toUInt8) → loop i lexical = loop (i + 1) (lexical ++ [byteAsChar b]))
    (lexical : List Char) (hascii : ∀ d ∈ delimiters, d.toNat < 128) (hc : c ∉ delimiters) :
    loop i lexical =
      loop (i + byteLength [c]) (lexical ++ (utf8 (.singleton c)).map byteAsChar) := by
  have hlen : byteLength [c] = (utf8 (.singleton c)).length := by
    rw [utf8_singleton, String.length_utf8EncodeChar]
    rfl
  rw [hlen]
  apply loop_run loop hstep
  · rw [drop_utf8_of_sliceFrom h, utf8_ofList_cons]
    exact List.prefix_append _ _
  · rintro b hb d hd rfl
    exact hc (eq_of_mem_utf8_singleton (hascii d hd) hb ▸ hd)

end AtomrOntology
