import Columnar.Step

/-!
# What steps keep

A run of steps is reasoned about through what each of them keeps.

* `Step.Maintains I P x`   `x` keeps `I` of the state, whether it answers or fails, and what it
                           answers satisfies `P`;
* `Step.Fails I E x`       where `I` holds, `x` fails only with what satisfies `E`;
* `Step.Ends P E t`        a run ended in an answer and a state that satisfy `P`, or in a failure
                           and a state that satisfy `E`.

`maintains_bind`, `fails_bind` and `ends_bind` put two steps together; the other lemmas are the
parts that steps are made of.
-/

namespace Columnar.Step

variable {σ τ ε α β : Type} {I : σ → Prop} {P : α → Prop} {Q : β → Prop}

/-- a step that keeps `I`, and whose answers satisfy `P` -/
def Maintains (I : σ → Prop) (P : α → Prop) (x : Step σ ε α) : Prop :=
  ∀ s, I s → I (x s).2 ∧ ∀ a, (x s).1 = .ok a → P a

/-- any answer will do -/
def Any : α → Prop := fun _ => True

theorem Maintains.of_eq {x : Step σ ε α} (h : Maintains I P x) {s s' : σ} {a : α} (hs : I s)
    (e : x s = (.ok a, s')) : I s' ∧ P a := by
  obtain ⟨h1, h2⟩ := h s hs
  rw [e] at h1 h2
  exact ⟨h1, h2 a rfl⟩

/-- what `x` keeps from every state on, whatever it answers -/
theorem Maintains.of_forall {x : Step σ ε α} (h : ∀ s, I s → I (x s).2) : Maintains I Any x :=
  fun s hs => ⟨h s hs, fun _ _ => trivial⟩

theorem maintains_any (x : Step σ ε α) : Maintains (fun _ => True) Any x :=
  .of_forall fun _ _ => trivial

theorem Maintains.mono {P' : α → Prop} {x : Step σ ε α} (h : Maintains I P x)
    (hP : ∀ a, P a → P' a) : Maintains I P' x :=
  fun s hs => ⟨(h s hs).1, fun a e => hP a ((h s hs).2 a e)⟩

theorem maintains_pure {a : α} (h : P a) : Maintains I P (pure a : Step σ ε α) := by
  intro s hs
  refine ⟨hs, fun b e => ?_⟩
  cases e
  exact h

theorem maintains_fail (e : ε) : Maintains I P (fail e : Step σ ε α) :=
  fun _ hs => ⟨hs, fun _ h => nomatch h⟩

theorem maintains_state : Maintains I I (state : Step σ ε σ) := by
  intro s hs
  refine ⟨hs, fun a e => ?_⟩
  cases e
  exact hs

theorem maintains_look {f : σ → α} (h : ∀ s, I s → P (f s)) :
    Maintains I P (look f : Step σ ε α) := by
  intro s hs
  refine ⟨hs, fun a e => ?_⟩
  cases e
  exact h s hs

theorem maintains_put {s : σ} (h : I s) : Maintains I Any (put s : Step σ ε Unit) :=
  fun _ _ => ⟨h, fun _ _ => trivial⟩

theorem maintains_update {f : σ → σ} (h : ∀ s, I s → I (f s)) :
    Maintains I Any (update f : Step σ ε Unit) :=
  fun s hs => ⟨h s hs, fun _ _ => trivial⟩

theorem maintains_ofExcept {r : Except ε α} (h : ∀ a, r = .ok a → P a) :
    Maintains I P (ofExcept r : Step σ ε α) :=
  fun _ hs => ⟨hs, h⟩

/-- an error that the state has no part in, among failures -/
theorem maintains_lift {e : Except Error α} (h : ∀ a, e = .ok a → P a) :
    Maintains I P (liftM e : Step σ Failure α) := by
  cases e with
  | error e => exact maintains_fail (Failure.error e)
  | ok a => exact maintains_pure (h a rfl)

theorem maintains_bind {x : Step σ ε α} {f : α → Step σ ε β} (hx : Maintains I P x)
    (hf : ∀ a, P a → Maintains I Q (f a)) : Maintains I Q (x >>= f) := by
  intro s hs
  obtain ⟨h1, h2⟩ := hx s hs
  rw [bind_apply]
  rcases h : x s with ⟨e | a, s'⟩
  · rw [h] at h1
    exact ⟨h1, fun _ h' => nomatch h'⟩
  · rw [h] at h1 h2
    exact hf a (h2 a rfl) s' h1

theorem maintains_mapError {ε' : Type} {g : ε → ε'} {x : Step σ ε α} (hx : Maintains I P x) :
    Maintains I P (mapError g x) := by
  intro s hs
  obtain ⟨h1, h2⟩ := hx s hs
  unfold mapError
  rcases h : x s with ⟨e | a, s'⟩
  · rw [h] at h1
    exact ⟨h1, fun _ h' => nomatch h'⟩
  · rw [h] at h1 h2
    refine ⟨h1, fun b e => ?_⟩
    cases e
    exact h2 a rfl

theorem maintains_within [Contextual ε] {c : Context} {x : Step σ ε α} (hx : Maintains I P x) :
    Maintains I P (x.within c) :=
  maintains_mapError hx

/-- a step on a part keeps what every new part leaves as it is -/
theorem maintains_on {part : σ → τ} {set : σ → τ → σ} {x : Step τ ε α}
    (h : ∀ s t, I s → I (set s t)) : Maintains I Any (on part set x) :=
  fun s hs => ⟨h s _ hs, fun _ _ => trivial⟩

theorem maintains_times {x : Step σ ε α} (hx : Maintains I P x) (n : Nat) :
    Maintains I (fun as => as.length = n ∧ ∀ a ∈ as, P a) (times n x) := by
  induction n with
  | zero =>
    rw [times_zero]
    exact maintains_pure ⟨rfl, List.forall_mem_nil P⟩
  | succ n ih =>
    rw [times_succ]
    refine maintains_bind hx fun a ha => maintains_bind ih fun as has => maintains_pure ?_
    exact ⟨congrArg Nat.succ has.1, List.forall_mem_cons.mpr ⟨ha, has.2⟩⟩

theorem maintains_replicate {x : Step σ ε Unit} (hx : Maintains I Any x) (n : Nat) :
    Maintains I Any (replicate n x) := by
  induction n with
  | zero => exact maintains_pure trivial
  | succ n ih =>
    rw [replicate_succ]
    exact maintains_bind hx fun _ _ => ih

/-! ## how steps fail -/

/-- where `I` holds, `x` fails only with what satisfies `E` -/
def Fails (I : σ → Prop) (E : ε → Prop) (x : Step σ ε α) : Prop :=
  ∀ s, I s → ∀ e, (x s).1 = .error e → E e

section
variable {E : ε → Prop}

theorem Fails.mono {E' : ε → Prop} {x : Step σ ε α} (h : Fails I E x) (hE : ∀ e, E e → E' e) :
    Fails I E' x := fun s hs e he => hE e (h s hs e he)

theorem fails_pure (a : α) : Fails I E (pure a : Step σ ε α) := fun _ _ _ h => nomatch h

theorem fails_fail {e : ε} (h : E e) : Fails I E (fail e : Step σ ε α) := by
  intro s _ e' he
  cases he
  exact h

theorem fails_state : Fails I E (state : Step σ ε σ) := fun _ _ _ h => nomatch h

theorem fails_look (f : σ → α) : Fails I E (look f : Step σ ε α) := fun _ _ _ h => nomatch h

theorem fails_put (s : σ) : Fails I E (put s : Step σ ε Unit) := fun _ _ _ h => nomatch h

theorem fails_update (f : σ → σ) : Fails I E (update f : Step σ ε Unit) :=
  fun _ _ _ h => nomatch h

theorem fails_ofExcept {r : Except ε α} (h : ∀ e, r = .error e → E e) :
    Fails I E (ofExcept r : Step σ ε α) := fun _ _ => h

theorem fails_bind {x : Step σ ε α} {f : α → Step σ ε β} (hx : Maintains I P x)
    (hx' : Fails I E x) (hf : ∀ a, P a → Fails I E (f a)) : Fails I E (x >>= f) := by
  intro s hs e he
  obtain ⟨h1, h2⟩ := hx s hs
  have h3 := hx' s hs
  rw [bind_apply] at he
  rcases h : x s with ⟨e' | a, s'⟩
  · rw [h] at he h3
    cases he
    exact h3 e rfl
  · rw [h] at he h1 h2
    exact hf a (h2 a rfl) s' h1 e he

theorem fails_mapError {ε' : Type} {g : ε → ε'} {E' : ε' → Prop} {x : Step σ ε α}
    (hx : Fails I E x) (hg : ∀ e, E e → E' (g e)) : Fails I E' (mapError g x) := by
  intro s hs e he
  have h := hx s hs
  unfold mapError at he
  rcases hrun : x s with ⟨e' | a, s'⟩
  · rw [hrun] at he h
    cases he
    exact hg e' (h e' rfl)
  · rw [hrun] at he
    cases he

theorem fails_on {part : σ → τ} {set : σ → τ → σ} {J : τ → Prop} {x : Step τ ε α}
    (hx : Fails J E x) (h : ∀ s, I s → J (part s)) : Fails I E (on part set x) :=
  fun s hs e he => hx (part s) (h s hs) e he

theorem fails_times {x : Step σ ε α} (hx : Maintains I P x) (hx' : Fails I E x) (n : Nat) :
    Fails I E (times n x) := by
  induction n with
  | zero => exact fails_pure []
  | succ n ih =>
    rw [times_succ]
    exact fails_bind hx hx' fun a _ =>
      fails_bind (maintains_times hx n) ih fun as _ => fails_pure _

theorem fails_replicate {x : Step σ ε Unit} (hx : Maintains I Any x) (hx' : Fails I E x)
    (n : Nat) : Fails I E (replicate n x) := by
  induction n with
  | zero => exact fails_pure ()
  | succ n ih =>
    rw [replicate_succ]
    exact fails_bind hx hx' fun _ _ => ih

end

/-! ## how runs end -/

/-- a run ended in an answer and a state that satisfy `P`, or in a failure and a state that
satisfy `E` -/
def Ends (P : α → σ → Prop) (E : ε → σ → Prop) : Except ε α × σ → Prop
  | (.ok a, s) => P a s
  | (.error e, s) => E e s

section
variable {A : α → σ → Prop} {B : β → σ → Prop} {E : ε → σ → Prop} {s : σ}

theorem Ends.mono {A' : α → σ → Prop} {E' : ε → σ → Prop} {t : Except ε α × σ} (h : Ends A E t)
    (hA : ∀ a s, A a s → A' a s) (hE : ∀ e s, E e s → E' e s) : Ends A' E' t := by
  rcases t with ⟨e | a, s⟩
  · exact hE e s h
  · exact hA a s h

/-- what holds of the state whether a run ended in an answer or in a failure -/
theorem Ends.snd {P : σ → Prop} {t : Except ε α × σ} (h : Ends (fun _ => P) (fun _ => P) t) :
    P t.2 := by
  rcases t with ⟨e | a, s⟩
  · exact h
  · exact h

theorem ends_bind {x : Step σ ε α} {f : α → Step σ ε β} (hx : Ends A E (x s))
    (hf : ∀ a s', A a s' → Ends B E (f a s')) : Ends B E ((x >>= f) s) := by
  rw [bind_apply]
  rcases h : x s with ⟨e | a, s'⟩
  · rw [h] at hx
    exact hx
  · rw [h] at hx
    exact hf a s' hx

theorem ends_ofExcept {r : Except ε α} (h : ∀ a, r = .ok a → A a s)
    (hE : ∀ e, r = .error e → E e s) : Ends A E ((ofExcept r : Step σ ε α) s) := by
  cases r with
  | error e => exact hE e rfl
  | ok a => exact h a rfl

theorem ends_mapError {ε' : Type} {g : ε → ε'} {E' : ε' → σ → Prop} {x : Step σ ε α}
    (hx : Ends A E (x s)) (hg : ∀ e s, E e s → E' (g e) s) : Ends A E' (mapError g x s) := by
  unfold mapError
  rcases h : x s with ⟨e | a, s'⟩
  · rw [h] at hx
    exact hg e s' hx
  · rw [h] at hx
    exact hx

/-- a step on a part of the state ends as it does, in a state with that part -/
theorem ends_on {part : σ → τ} {set : σ → τ → σ} {A : α → τ → Prop} {E : ε → τ → Prop}
    {x : Step τ ε α} (h : Ends A E (x (part s))) :
    Ends (fun a t => ∃ u, A a u ∧ t = set s u) (fun e t => ∃ u, E e u ∧ t = set s u)
      (on part set x s) := by
  rw [on_apply]
  rcases hrun : x (part s) with ⟨e | a, u⟩
  · rw [hrun] at h
    exact ⟨u, h, rfl⟩
  · rw [hrun] at h
    exact ⟨u, h, rfl⟩

/-- what a step keeps and how it fails, as the end of a run -/
theorem Maintains.ends {x : Step σ ε α} {F : ε → Prop} (h : Maintains I P x) (h' : Fails I F x)
    (hs : I s) : Ends (fun a t => I t ∧ P a) (fun e t => I t ∧ F e) (x s) := by
  obtain ⟨h1, h2⟩ := h s hs
  have h3 := h' s hs
  rcases hrun : x s with ⟨e | a, s'⟩
  · rw [hrun] at h1 h3
    exact ⟨h1, h3 e rfl⟩
  · rw [hrun] at h1 h2
    exact ⟨h1, h2 a rfl⟩

end

/-! ## the laws of a monad -/

instance lawful : LawfulMonad (Step σ ε) := by
  refine LawfulMonad.mk' _ ?_ ?_ ?_
  · intro α x
    funext s
    show (x >>= fun a => pure (id a)) s = x s
    rw [bind_apply]
    rcases x s with ⟨e | a, s'⟩ <;> rfl
  · intro α β a f
    rfl
  · intro α β γ x f g
    funext s
    simp only [bind_apply]
    rcases x s with ⟨e | a, s'⟩ <;> rfl

/-! ## answers -/

/-- a step many times, with something done to each answer -/
theorem times_map (f : α → β) (x : Step σ ε α) (n : Nat) :
    times n (f <$> x) = List.map f <$> times n x := by
  induction n with
  | zero => rfl
  | succ n ih =>
    funext s
    rw [times_succ, times_succ, ih]
    show ((x >>= fun a => pure (f a)) >>= fun b => _) s =
      ((x >>= fun a => times n x >>= fun as => pure (a :: as)) >>= fun as => pure (as.map f)) s
    simp only [bind_apply]
    rcases x s with ⟨e | a, s'⟩
    · rfl
    · show ((times n x >>= fun as => pure (as.map f)) >>= fun bs => pure (f a :: bs)) s' = _
      simp only [bind_apply]
      rcases times n x s' with ⟨e | as, s''⟩
      · rfl
      · rfl

/-- a step many times for what it leaves behind, with its answers forgotten -/
theorem replicate_map (x : Step σ ε α) (n : Nat) :
    replicate n ((fun _ => ()) <$> x) = (fun _ => ()) <$> times n x := by
  induction n with
  | zero => rfl
  | succ n ih =>
    rw [replicate_succ, times_succ, ih, bind_map_left, map_bind]
    refine bind_congr fun a => ?_
    rw [map_bind]
    rfl

theorem ofExcept_ok {r : Except ε α} {a : α} (h : r = .ok a) (s : σ) :
    (liftM r : Step σ ε α) s = (.ok a, s) := by
  rw [h]
  rfl

/-- what is done to an answer -/
theorem map_ok {f : α → β} {x : Step σ ε α} {s s' : σ} {a : α} (h : x s = (.ok a, s')) :
    (f <$> x) s = (.ok (f a), s') := bind_ok h _

theorem within_ok [Contextual ε] {x : Step σ ε α} {c : Context} {s s' : σ} {a : α}
    (h : x s = (.ok a, s')) : x.within c s = (.ok a, s') := by
  rw [within, mapError, h]

theorem within_error [Contextual ε] {x : Step σ ε α} {c : Context} {s s' : σ} {e : ε}
    (h : x s = (.error e, s')) : x.within c s = (.error (Contextual.within c e), s') := by
  rw [within, mapError, h]

/-- a step that has a context answers where the step does -/
theorem within_eq_ok [Contextual ε] {x : Step σ ε α} {c : Context} {s s' : σ} {a : α}
    (h : x.within c s = (.ok a, s')) : x s = (.ok a, s') := by
  rcases hx : x s with ⟨e | a', t⟩
  · rw [within_error hx] at h
    cases h
  · rw [within_ok hx] at h
    exact h

/-- a step that has a context fails where the step does -/
theorem within_eq_error [Contextual ε] {x : Step σ ε α} {c : Context} {s s' : σ} {e : ε}
    (h : x.within c s = (.error e, s')) : ∃ e', x s = (.error e', s') := by
  rcases hx : x s with ⟨e' | a, t⟩
  · rw [within_error hx] at h
    cases h
    exact ⟨e', rfl⟩
  · rw [within_ok hx] at h
    cases h

theorem within_snd [Contextual ε] (x : Step σ ε α) (c : Context) (s : σ) :
    (x.within c s).2 = (x s).2 := by
  rw [within, mapError]
  rcases x s with ⟨_ | _, _⟩ <;> rfl

theorem within_congr [Contextual ε] {x y : Step σ ε α} {c : Context} {s t : σ} (h : x s = y t) :
    x.within c s = y.within c t := by
  rw [within, mapError, h]
  rfl

theorem onFst_ok {x : Step σ ε α} {s s' : σ} {a : α} (h : x s = (.ok a, s')) (t : τ) :
    x.onFst (s, t) = (.ok a, (s', t)) := by
  rw [onFst, h]

theorem onFst_error {x : Step σ ε α} {s s' : σ} {e : ε} (h : x s = (.error e, s')) (t : τ) :
    x.onFst (s, t) = (.error e, (s', t)) := by
  rw [onFst, h]

theorem onSnd_ok {x : Step τ ε α} {t t' : τ} {a : α} (h : x t = (.ok a, t')) (s : σ) :
    x.onSnd (s, t) = (.ok a, (s, t')) := by
  rw [onSnd, h]

theorem onSnd_error {x : Step τ ε α} {t t' : τ} {e : ε} (h : x t = (.error e, t')) (s : σ) :
    x.onSnd (s, t) = (.error e, (s, t')) := by
  rw [onSnd, h]

/-- an answer that the state has no part in, among failures -/
theorem liftM_ok {e : Except Error α} {a : α} (h : e = .ok a) (s : σ) :
    (liftM e : Step σ Failure α) s = (.ok a, s) := by
  rw [h]
  rfl

theorem lift_eq_ok {x : Step σ Error α} {s s' : σ} {a : α} :
    (liftM x : Step σ Failure α) s = (.ok a, s') ↔ x s = (.ok a, s') := by
  refine ⟨fun h => ?_, lift_ok⟩
  rcases hx : x s with ⟨e | a', t⟩
  · rw [lift_error hx] at h
    cases h
  · rw [lift_ok hx] at h
    cases h
    rfl

/-- a difference that there is -/
theorem subtract_bind {a b : Nat} (h : b ≤ a) (f : Nat → Step σ Failure α) (s : σ) :
    ((subtract a b : Step σ Failure Nat) >>= f) s = f (a - b) s :=
  bind_ok (ofExcept_ok (subtract_ok h) s) f

/-- an answer with something in front of it -/
theorem answer_two {γ : Type} (e : Except ε α) (x : Step σ ε β) (f : α → β → γ) (s : σ) :
    (do let a ← e; let b ← x; pure (f a b) : Step σ ε γ).answer s =
      (do let a ← e; let b ← x.answer s; pure (f a b)) := by
  cases e with
  | error e => rfl
  | ok a =>
    show ((x >>= fun b => pure (f a b)) s).1 = (x s).1 >>= fun b => pure (f a b)
    rw [bind_apply]
    rcases x s with ⟨e | b, _⟩
    · rfl
    · rfl

/-- what fails first fails the whole -/
theorem bind_fst_error {x : Step σ ε α} {s : σ} {e : ε} (h : (x s).1 = .error e)
    (f : α → Step σ ε β) : ((x >>= f) s).1 = .error e := by
  rw [bind_apply]
  rcases hx : x s with ⟨y | a, t⟩
  · rw [hx] at h
    exact congrArg _ (Except.error.inj h)
  · rw [hx] at h
    cases h

end Columnar.Step

namespace Columnar

theorem Except.ok_ne_error {ε α : Type} {a : α} {e : ε} : (.ok a : Except ε α) ≠ .error e := nofun

/-- what is done to an answer cannot fail -/
theorem Except.error_of_pure {ε α β : Type} {x : Except ε α} {f : α → β} {e : ε}
    (h : (x >>= fun a => pure (f a)) = .error e) : x = .error e := by
  cases x with
  | error y =>
    cases h
    rfl
  | ok a => cases h

theorem Except.bind_ok {ε α β : Type} {x : Except ε α} {a : α} (h : x = .ok a)
    (f : α → Except ε β) : (x >>= f) = f a := by
  rw [h]
  rfl

/-- two answers in a row are an answer only when both are -/
theorem Except.bind_eq_ok {ε α β : Type} {x : Except ε α} {f : α → Except ε β} {b : β} :
    (x >>= f) = .ok b ↔ ∃ a, x = .ok a ∧ f a = .ok b := by
  cases x with
  | ok a =>
    constructor
    · exact fun h => ⟨a, rfl, h⟩
    · rintro ⟨a', h, h'⟩
      cases h
      exact h'
  | error e =>
    constructor
    · exact fun h => nomatch h
    · rintro ⟨_, h, _⟩
      cases h

/-- answers for the members of a list are an answer when all of them are -/
theorem Except.mapM_eq_ok {ε α β : Type} {f : α → Except ε β} {as : List α} {bs : List β} :
    as.mapM f = .ok bs ↔ as.map f = bs.map .ok := by
  induction as generalizing bs with
  | nil =>
    rw [List.mapM_nil, List.map_nil]
    constructor
    · rintro ⟨⟩
      rfl
    · intro h
      rw [List.map_eq_nil_iff.mp h.symm]
      rfl
  | cons a as ih =>
    rw [List.mapM_cons, List.map_cons]
    constructor
    · intro h
      obtain ⟨b, hb, h₁⟩ := bind_eq_ok.mp h
      obtain ⟨bs', hbs, h₂⟩ := bind_eq_ok.mp h₁
      cases h₂
      rw [hb, ih.mp hbs, List.map_cons]
    · intro h
      match bs with
      | b :: bs =>
        obtain ⟨hb, hbs⟩ := List.cons.inj h
        rw [hb, ih.mpr hbs]
        rfl

/-- each answer belongs to a member -/
theorem Except.exists_of_mapM {ε α β : Type} {f : α → Except ε β} {as : List α} {bs : List β}
    (h : as.mapM f = .ok bs) : ∀ b ∈ bs, ∃ a ∈ as, f a = .ok b := by
  intro b hb
  have hmem : Except.ok b ∈ as.map f := by
    rw [mapM_eq_ok.mp h]
    exact List.mem_map_of_mem hb
  exact List.mem_map.mp hmem

/-- the answers where each is known -/
theorem Except.eq_map_of_mapM {ε α β : Type} {f : α → Except ε β} {g : α → β} {as : List α}
    {bs : List β} (h : as.mapM f = .ok bs) (hg : ∀ a ∈ as, ∀ b, f a = .ok b → b = g a) :
    bs = as.map g := by
  induction as generalizing bs with
  | nil =>
    cases h
    rfl
  | cons a as ih =>
    rw [List.mapM_cons] at h
    obtain ⟨b, hb, h₁⟩ := bind_eq_ok.mp h
    obtain ⟨bs', hbs, h₂⟩ := bind_eq_ok.mp h₁
    cases h₂
    rw [List.map_cons, hg a List.mem_cons_self b hb,
      ih hbs fun a' ha' => hg a' (List.mem_cons_of_mem a ha')]

/-- a check of each member holds of each member -/
theorem Except.forall_of_forM {ε α : Type} {f : α → Except ε Unit} {as : List α}
    (h : as.forM f = .ok ()) : ∀ a ∈ as, f a = .ok () := by
  induction as with
  | nil => exact List.forall_mem_nil _
  | cons a as ih =>
    obtain ⟨⟨⟩, ha, has⟩ := Except.bind_eq_ok.mp h
    exact List.forall_mem_cons.mpr ⟨ha, ih has⟩

end Columnar
