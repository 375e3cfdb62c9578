import Mathlib

/-!
# Collision-free digests and self-delimiting codes

A digest sends a payload to a fixed kind of name and two payloads never share
one. A hash function with a bounded output cannot do that for an unbounded
payload, so the type `H` of the names is left free: what a program proves from
"the hash is collision free" is proved over every `H` that has such a digest.
The zero of `H` is kept for "no payload": no digest takes that value.

The second half gives one such family. A code is *self-delimiting* when the
end of a code word can be found without a separator; such codes compose, and
prefixing a code word by a non-empty tag gives a digest into strings.
-/

/-- **A collision-free digest** of payloads `P` into names `H`. -/
class Digest (H P : Type) [Zero H] where
  /-- The name of a payload. -/
  digest : P → H
  /-- Two payloads never share a name. -/
  digest_injective : Function.Injective digest
  /-- The name zero is no payload's. -/
  digest_ne_zero : ∀ p, digest p ≠ 0

namespace Digest

variable {H P : Type} [Zero H] [Digest H P]

/-- Equal names come from equal payloads. -/
theorem digest_inj {p q : P} : (digest p : H) = digest q ↔ p = q :=
  (digest_injective (H := H)).eq_iff

end Digest

/-- **A self-delimiting code** over strings of natural numbers: a string that
starts with a code word determines the word and what follows it. -/
class Delimited (P : Type) where
  /-- The code word of a value. -/
  enc : P → List ℕ
  /-- The word and the rest can be read back. -/
  enc_append_inj : ∀ {a b : P} {s t : List ℕ}, enc a ++ s = enc b ++ t → a = b ∧ s = t

namespace Delimited

variable {P Q : Type}

/-- A self-delimiting code is injective. -/
theorem enc_injective [Delimited P] : Function.Injective (enc : P → List ℕ) := by
  intro a b h
  exact (enc_append_inj (s := []) (t := []) (by rw [h])).1

/-- One letter per number. -/
instance : Delimited ℕ where
  enc n := [n]
  enc_append_inj h := by simpa using h

/-- A code for a type that embeds in a coded type. -/
@[reducible] def ofInjective [Delimited Q] (f : P → Q) (hf : Function.Injective f) : Delimited P where
  enc a := enc (f a)
  enc_append_inj h := by
    obtain ⟨h1, h2⟩ := enc_append_inj h
    exact ⟨hf h1, h2⟩

/-- Pairs, one word after the other. -/
instance [Delimited P] [Delimited Q] : Delimited (P × Q) where
  enc a := enc a.1 ++ enc a.2
  enc_append_inj {a b s t} h := by
    rw [List.append_assoc, List.append_assoc] at h
    obtain ⟨h1, h2⟩ := enc_append_inj h
    obtain ⟨h3, h4⟩ := enc_append_inj h2
    exact ⟨Prod.ext h1 h3, h4⟩

/-- Disjoint sums, behind a tag. -/
instance [Delimited P] [Delimited Q] : Delimited (P ⊕ Q) where
  enc a := Sum.elim (fun p => 0 :: enc p) (fun q => 1 :: enc q) a
  enc_append_inj {a b s t} h := by
    cases a with
    | inl p =>
      cases b with
      | inl p' =>
        obtain ⟨h1, h2⟩ := enc_append_inj (List.cons_inj_right 0 |>.mp h)
        exact ⟨congrArg Sum.inl h1, h2⟩
      | inr q' => simp at h
    | inr q =>
      cases b with
      | inl p' => simp at h
      | inr q' =>
        obtain ⟨h1, h2⟩ := enc_append_inj (List.cons_inj_right 1 |>.mp h)
        exact ⟨congrArg Sum.inr h1, h2⟩

/-- The unit type, by the empty word. -/
instance : Delimited Unit where
  enc _ := []
  enc_append_inj h := ⟨rfl, h⟩

/-- An optional value, behind a tag. -/
instance [Delimited P] : Delimited (Option P) :=
  ofInjective (Q := Unit ⊕ P) (fun o => o.elim (Sum.inl ()) Sum.inr) (by
    intro a b h
    cases a <;> cases b <;> simp_all)

/-- The words of a list, one after the other. -/
def encList [Delimited P] (l : List P) : List ℕ := l.flatMap enc

/-- Two lists of one length can be read back from their words. -/
theorem encList_append_inj [Delimited P] {l m : List P} {s t : List ℕ}
    (hlen : l.length = m.length) (h : encList l ++ s = encList m ++ t) : l = m ∧ s = t := by
  induction l generalizing m with
  | nil =>
    cases m with
    | nil => exact ⟨rfl, h⟩
    | cons b m => simp at hlen
  | cons a l ih =>
    cases m with
    | nil => simp at hlen
    | cons b m =>
      simp only [encList, List.flatMap_cons, List.append_assoc] at h
      obtain ⟨h1, h2⟩ := enc_append_inj h
      obtain ⟨h3, h4⟩ := ih (by simpa using hlen) h2
      exact ⟨by rw [h1, h3], h4⟩

/-- A list, by its length and its words. -/
instance [Delimited P] : Delimited (List P) where
  enc l := l.length :: encList l
  enc_append_inj {l m s t} h := by
    simp only [List.cons_append, List.cons.injEq] at h
    exact encList_append_inj h.1 h.2

end Delimited

/-- A string of numbers used as a name. -/
structure CodeName where
  /-- The letters of the name. -/
  letters : List ℕ
deriving DecidableEq

namespace CodeName

theorem letters_injective : Function.Injective letters := by
  rintro ⟨l⟩ ⟨m⟩ h
  exact congrArg CodeName.mk h

/-- The empty string is the name of nothing. -/
instance : Zero CodeName := ⟨⟨[]⟩⟩

/-- Names are ordered as strings. -/
instance : LinearOrder CodeName := LinearOrder.lift' letters letters_injective

/-- Names are coded as the lists they are. -/
instance : Delimited CodeName := Delimited.ofInjective letters letters_injective

/-- **A self-delimiting code gives a collision-free digest**: a tag before the
code word keeps the empty string free. -/
@[reducible] def digest (P : Type) [Delimited P] (tag : ℕ) : Digest CodeName P where
  digest p := ⟨tag :: Delimited.enc p⟩
  digest_injective a b h :=
    Delimited.enc_injective (List.cons_inj_right tag |>.mp (congrArg letters h))
  digest_ne_zero p h := by cases congrArg letters h

end CodeName
