import Turbolib.Library.Numeral

/-!
# Percent escapes

An escape is a percent sign and two hexadecimal digits. Resolving a text puts the byte in
place of each escape whose byte is accepted. Escapes do not overlap, so which of them are
accepted does not change where the others are.

## Main definitions

* `Percent.escaped`, `Percent.resolve` — the byte of an escape, and the text without them.
* `Percent.Occurs` — a text has an escape of a kind in it.
-/

namespace Turbolib

namespace Percent

variable {accept accept' : UInt8 → Bool} {p : UInt8 → Prop} {c h l v : UInt8}
  {text rest : Text}

/-- The byte that three bytes stand for when they are an escape. -/
def escaped (c h l : UInt8) : Option UInt8 :=
  if c = byte '%' ∧ Numeral.isDigit 16 h ∧ Numeral.isDigit 16 l then
    some (.ofNat (Numeral.value 16 [h, l]))
  else none

/-- From the left, each escape of an accepted byte is replaced by the byte and everything
else is copied. -/
def resolve (accept : UInt8 → Bool) : Text → Text
  | c :: h :: l :: rest =>
    match (escaped c h l).filter accept with
    | some v => v :: resolve accept rest
    | none => c :: resolve accept (h :: l :: rest)
  | [c, h] => [c, h]
  | [c] => [c]
  | [] => []

/-- Somewhere in the text there is an escape of a byte with the property. -/
def Occurs (p : UInt8 → Prop) (text : Text) : Prop :=
  ∃ before c h l after v, text = before ++ c :: h :: l :: after ∧ escaped c h l = some v ∧ p v

theorem escaped_eq_some (hv : escaped c h l = some v) :
    c = byte '%' ∧ Numeral.isDigit 16 h ∧ Numeral.isDigit 16 l := by
  grind [escaped]

theorem escaped_of_ne (hc : c ≠ byte '%') : escaped c h l = none := if_neg fun hand => hc hand.1

/-- A digit does not begin an escape. -/
theorem ne_percent (hh : Numeral.isDigit 16 h = true) : h ≠ byte '%' := by
  rintro rfl
  exact absurd hh (by decide)

/-! ## Resolving -/

theorem resolve_escape (hv : escaped c h l = some v) (haccept : accept v = true) :
    resolve accept (c :: h :: l :: rest) = v :: resolve accept rest := by
  simp [resolve, hv, Option.filter, haccept]

/-- What does not begin an escape of an accepted byte is copied. -/
theorem resolve_copy
    (hnone : ∀ h l rest v, text = h :: l :: rest → escaped c h l = some v → accept v = false) :
    resolve accept (c :: text) = c :: resolve accept text := by
  rcases text with - | ⟨h, - | ⟨l, rest⟩⟩
  · rfl
  · rfl
  · have hfilter : (escaped c h l).filter accept = none := by
      cases hv : escaped c h l with
      | none => rfl
      | some v => simp [Option.filter, hnone h l rest v rfl hv]
    simp [resolve, hfilter]

theorem resolve_cons_of_ne (hc : c ≠ byte '%') :
    resolve accept (c :: text) = c :: resolve accept text :=
  resolve_copy fun _ _ _ _ _ hv => by simp [escaped_of_ne hc] at hv

/-! ## Where the escapes are -/

theorem not_occurs_nil : ¬Occurs p [] := by
  rintro ⟨before, c, h, l, after, v, htext, -⟩
  simp at htext

theorem occurs_cons_iff :
    Occurs p (c :: text) ↔
      (∃ h l rest v, text = h :: l :: rest ∧ escaped c h l = some v ∧ p v) ∨ Occurs p text := by
  constructor
  · rintro ⟨- | ⟨c', before⟩, d, h, l, after, v, htext, hv, hp⟩
    · obtain ⟨rfl, rfl⟩ := List.cons.inj htext
      exact Or.inl ⟨h, l, after, v, rfl, hv, hp⟩
    · obtain ⟨rfl, rfl⟩ := List.cons.inj htext
      exact Or.inr ⟨before, d, h, l, after, v, rfl, hv, hp⟩
  · rintro (⟨h, l, rest, v, rfl, hv, hp⟩ | ⟨before, d, h, l, after, v, rfl, hv, hp⟩)
    · exact ⟨[], c, h, l, rest, v, rfl, hv, hp⟩
    · exact ⟨c :: before, d, h, l, after, v, rfl, hv, hp⟩

theorem occurs_cons_of_ne (hc : c ≠ byte '%') : Occurs p (c :: text) ↔ Occurs p text := by
  rw [occurs_cons_iff, or_iff_right]
  rintro ⟨h, l, rest, v, -, hv, -⟩
  simp [escaped_of_ne hc] at hv

/-- The next escape after an escape begins behind it. -/
theorem occurs_escape (hv : escaped c h l = some v) :
    Occurs p (c :: h :: l :: rest) ↔ p v ∨ Occurs p rest := by
  obtain ⟨-, hh, hl⟩ := escaped_eq_some hv
  rw [occurs_cons_iff, occurs_cons_of_ne (ne_percent hh), occurs_cons_of_ne (ne_percent hl)]
  simp [hv]

/-! ## Accepting more -/

/-- Accepting more escapes makes the text shorter when one of the new ones occurs, and
leaves it as it was otherwise. -/
theorem resolve_more (hmore : ∀ v, accept v = true → accept' v = true) (text : Text) :
    (Occurs (fun v => accept' v = true ∧ accept v = false) text →
        (resolve accept' text).length < (resolve accept text).length) ∧
      (¬Occurs (fun v => accept' v = true ∧ accept v = false) text →
        resolve accept' text = resolve accept text) := by
  fun_induction resolve accept' text with
  | case1 c h l rest v hfilter ih =>
    obtain ⟨hv, haccept'⟩ := Option.filter_eq_some_iff.mp hfilter
    obtain ⟨-, hh, hl⟩ := escaped_eq_some hv
    rw [occurs_escape hv]
    by_cases haccept : accept v = true
    · rw [resolve_escape hv haccept, or_iff_right (by simp [haccept])]
      simpa using ih
    · -- a new one: three bytes in place of one
      have hcopy : resolve accept (c :: h :: l :: rest) = c :: h :: l :: resolve accept rest := by
        rw [resolve_copy (by grind), resolve_cons_of_ne (ne_percent hh),
          resolve_cons_of_ne (ne_percent hl)]
      have hle : (resolve accept' rest).length ≤ (resolve accept rest).length := by
        by_cases hrest : Occurs (fun v => accept' v = true ∧ accept v = false) rest
        · exact (ih.1 hrest).le
        · exact (congrArg List.length (ih.2 hrest)).le
      have hnew : accept' v = true ∧ accept v = false := ⟨haccept', by simpa using haccept⟩
      rw [hcopy]
      refine ⟨fun _ => ?_, fun hnot => absurd (Or.inl hnew) hnot⟩
      simp only [List.length_cons]
      omega
  | case2 c h l rest hfilter ih =>
    have hnot : ∀ v, escaped c h l = some v → accept' v = false := by
      intro v hv
      simpa [hv, Option.filter] using hfilter
    have hcopy : resolve accept (c :: h :: l :: rest) = c :: resolve accept (h :: l :: rest) :=
      resolve_copy (by grind)
    have htail : Occurs (fun v => accept' v = true ∧ accept v = false) (c :: h :: l :: rest) ↔
        Occurs (fun v => accept' v = true ∧ accept v = false) (h :: l :: rest) := by
      rw [occurs_cons_iff, or_iff_right]
      grind
    rw [hcopy, htail]
    simpa using ih
  | case3 c h => simp [resolve, occurs_cons_iff, not_occurs_nil]
  | case4 c => simp [resolve, occurs_cons_iff, not_occurs_nil]
  | case5 => simp [resolve, not_occurs_nil]

/-- Two ways to accept give the same text exactly when they agree on the escapes in it. -/
theorem resolve_eq_iff (hmore : ∀ v, accept v = true → accept' v = true) (text : Text) :
    resolve accept text = resolve accept' text ↔
      ¬Occurs (fun v => accept' v = true ∧ accept v = false) text := by
  obtain ⟨hlt, heq⟩ := resolve_more hmore text
  refine ⟨fun h hoccurs => ?_, fun hnot => (heq hnot).symm⟩
  exact absurd (congrArg List.length h) (hlt hoccurs).ne'

end Percent

end Turbolib
