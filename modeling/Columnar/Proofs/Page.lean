import Columnar.Page
import Columnar.Proofs.Cursor
import Columnar.Proofs.Record.Failures

/-!
# Reading pages moves on

A page that was read is passed with its body, and whatever fails does not go back.

* `takes_page`          a header that can be read, with its body behind it, is a page;
* `DataPage.read_fails`, `DictionaryPage.read_fails`   what is not a page is refused regularly.
-/

namespace Columnar

open Step

theorem view_maintains (c : Cursor) (n : Nat) :
    Maintains c.Follows Any (Cursor.view n : Step Cursor Failure Bytes) :=
  maintains_mapError (Maintains.of_forall fun _ h => h.trans (Cursor.view_follows n _))

theorem PageHeader.read_maintains (o : Options) (c : Cursor) :
    Maintains c.Follows Any (PageHeader.read o) := by
  apply maintains_bind (P := Any) (maintains_look fun _ _ => trivial)
  intro rest _
  apply maintains_bind (P := Any) (maintains_ofExcept fun _ _ => trivial)
  intro r _
  refine maintains_bind (P := Any) (maintains_mapError ?_) fun _ _ => maintains_pure trivial
  exact maintains_bind (Maintains.of_forall fun _ h => h.trans (Cursor.view_follows _ _))
    fun _ _ => maintains_pure trivial

/-- a header, two checks of it, and a body -/
theorem maintains_page {α β : Type} {c : Cursor} {o : Options} {f : PageHeader → Except Error Nat}
    {g : PageHeader → Except Error α} {k : α → Bytes → β} :
    Maintains c.Follows Any (do
      let header ← PageHeader.read o
      let size ← f header
      let d ← g header
      let body ← Cursor.view size
      pure (k d body) : Step Cursor Failure β) := by
  apply maintains_bind (PageHeader.read_maintains o c)
  intro header _
  apply maintains_bind (P := Any) (maintains_lift fun _ _ => trivial)
  intro size _
  apply maintains_bind (P := Any) (maintains_lift fun _ _ => trivial)
  intro d _
  exact maintains_bind (view_maintains c size) fun _ _ => maintains_pure trivial

theorem DataPage.read_maintains (o : Options) (c : Cursor) :
    Maintains c.Follows Any (DataPage.read o) := maintains_page

theorem DictionaryPage.read_maintains (o : Options) (c : Cursor) :
    Maintains c.Follows Any (DictionaryPage.read o) := maintains_page

/-! ## failures -/

theorem PageHeader.read_fails (o : Options) (c : Cursor) :
    Fails c.Follows Failure.Regular (PageHeader.read o) := by
  refine fails_bind (P := Any) (maintains_look fun _ _ => trivial) (fails_look _) fun rest _ => ?_
  refine fails_bind (P := Any) (maintains_ofExcept fun _ _ => trivial)
    (fails_ofExcept fun e he => decode_regular he) fun r _ => ?_
  have hskip : Maintains c.Follows Any (Cursor.skip r.2) :=
    maintains_bind (Maintains.of_forall fun _ h => h.trans (Cursor.view_follows _ _))
      fun _ _ => maintains_pure trivial
  refine fails_bind (maintains_mapError hskip) (fails_lift ?_) fun _ _ => fails_pure _
  exact fails_bind (Maintains.of_forall fun _ h => h.trans (Cursor.view_follows _ _))
    (Cursor.view_fails _) fun _ _ => fails_pure _

/-- a header, two checks of it, and a body, all refused regularly -/
theorem fails_page {α β : Type} {c : Cursor} {o : Options} {f : PageHeader → Except Error Nat}
    {g : PageHeader → Except Error α} {k : α → Bytes → β}
    (hf : ∀ h e, f h = .error e → e.Regular) (hg : ∀ h e, g h = .error e → e.Regular) :
    Fails c.Follows Failure.Regular (do
      let header ← PageHeader.read o
      let size ← f header
      let d ← g header
      let body ← Cursor.view size
      pure (k d body) : Step Cursor Failure β) := by
  refine fails_bind (PageHeader.read_maintains o c) (PageHeader.read_fails o c) fun header _ => ?_
  refine fails_bind (P := Any) (maintains_lift fun _ _ => trivial)
    (fails_liftExcept (hf header)) fun size _ => ?_
  refine fails_bind (P := Any) (maintains_lift fun _ _ => trivial)
    (fails_liftExcept (hg header)) fun d _ => ?_
  exact fails_bind (view_maintains c size) (fails_lift (Cursor.view_fails size))
    fun _ _ => fails_pure _

theorem PageHeader.bodySize_regular (h : PageHeader) :
    ∀ e, h.bodySize = .error e → e.Regular := by
  intro e he
  unfold bodySize at he
  dsimp only at he
  split at he
  · cases he
    exact fun h => h
  · split at he
    · cases he
      exact fun h => h
    · cases he

theorem DataPage.check_regular (h : PageHeader) :
    ∀ e, DataPage.check h = .error e → e.Regular := by
  intro e he
  unfold DataPage.check at he
  repeat' split at he
  all_goals cases he
  all_goals exact fun h => h

theorem DictionaryPage.check_regular (h : PageHeader) :
    ∀ e, DictionaryPage.check h = .error e → e.Regular := by
  intro e he
  unfold DictionaryPage.check at he
  repeat' split at he
  all_goals cases he
  all_goals exact fun h => h

theorem DataPage.read_fails (o : Options) (c : Cursor) :
    Fails c.Follows Failure.Regular (DataPage.read o) :=
  fails_page PageHeader.bodySize_regular DataPage.check_regular

theorem DictionaryPage.read_fails (o : Options) (c : Cursor) :
    Fails c.Follows Failure.Regular (DictionaryPage.read o) :=
  fails_page PageHeader.bodySize_regular DictionaryPage.check_regular

/-! ## pages as they are written -/

/-- a header that passes both checks, and the body that it promises -/
theorem takes_page {α β : Type} {o : Options} {header : PageHeader} {front body : Bytes}
    {f : PageHeader → Except Error Nat} {g : PageHeader → Except Error α} {k : α → Bytes → β}
    {a : α} (hheader : Cursor.Takes (PageHeader.read o) front header)
    (hf : f header = .ok body.length) (hg : g header = .ok a) :
    Cursor.Takes (do
      let header ← PageHeader.read o
      let size ← f header
      let d ← g header
      let body ← Cursor.view size
      pure (k d body) : Step Cursor Failure β) (front ++ body) (k a body) := by
  intro before rest
  rw [List.append_assoc, Step.bind_ok (hheader before (body ++ rest))]
  refine (Step.bind_ok (Step.liftM_ok hf _) _).trans ?_
  refine (Step.bind_ok (Step.liftM_ok hg _) _).trans ?_
  refine (Step.bind_ok (Step.lift_ok (Cursor.view_append _ body rest)) _).trans ?_
  rw [List.reverse_append, List.append_assoc]
  rfl

theorem lift_eq_ok {σ α : Type} {e : Except Error α} {s s' : σ} {a : α}
    (h : (liftM e : Step σ Failure α) s = (.ok a, s')) : e = .ok a ∧ s' = s := by
  cases e with
  | error e => cases h
  | ok b =>
    cases h
    exact ⟨rfl, rfl⟩

theorem lift_view_eq_ok {n : Nat} {c c' : Cursor} {bs : Bytes}
    (h : (Cursor.view n : Step Cursor Failure Bytes) c = (.ok bs, c')) :
    Cursor.view n c = (.ok bs, c') := by
  rcases e : Cursor.view n c with ⟨x | as, c₁⟩
  · rw [lift_error e] at h
    cases h
  · rw [lift_ok e] at h
    cases h
    rfl

/-- the body of a page that was read lies behind its header -/
theorem DataPage.read_pos {o : Options} {c c' : Cursor} {page : DataPage}
    (h : DataPage.read o c = (.ok page, c')) : c.pos + page.body.length ≤ c'.pos := by
  obtain ⟨header, c₁, hh, h₁⟩ := bind_eq_ok.mp h
  have hpos := ((PageHeader.read_maintains o c).of_eq (.refl c) hh).1.pos
  obtain ⟨size, c₂, hs, h₂⟩ := bind_eq_ok.mp h₁
  obtain ⟨d, c₃, hd, h₃⟩ := bind_eq_ok.mp h₂
  obtain ⟨body, c₄, hb, h₄⟩ := bind_eq_ok.mp h₃
  obtain ⟨-, rfl⟩ := lift_eq_ok hs
  obtain ⟨-, rfl⟩ := lift_eq_ok hd
  obtain ⟨hlen, hend⟩ := Cursor.view_pos (lift_view_eq_ok hb)
  cases h₄
  rw [hend, ← hlen]
  exact Nat.add_le_add_right hpos _

end Columnar
