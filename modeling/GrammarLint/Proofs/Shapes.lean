import GrammarLint.Proofs.Spelling

open List

namespace GrammarLint.Lexical

section Chunks

variable {α : Type} {mark : α → Bool}

/-- A text is cut in one way only at its first mark. -/
theorem append_mark_unique {u v a b : List α} {x y : α} (free : ∀ z ∈ u, mark z = false)
    (free' : ∀ z ∈ v, mark z = false) (marked : mark x = true) (marked' : mark y = true)
    (same : u ++ x :: a = v ++ y :: b) : u = v ∧ x = y ∧ a = b := by
  have prefixes := congrArg (takeWhile (!mark ·)) same
  rw [takeWhile_append_stop (by simpa using free) (by simp [marked]),
    takeWhile_append_stop (by simpa using free') (by simp [marked'])] at prefixes
  subst prefixes
  exact ⟨rfl, cons.inj (append_cancel_left same)⟩

def Starts (mark : α → Bool) (chunk : List α) : Prop :=
  ∃ x rest, chunk = x :: rest ∧ mark x = true ∧ ∀ y ∈ rest, mark y = false

def Ends (mark : α → Bool) (chunk : List α) : Prop :=
  ∃ before x, chunk = before ++ [x] ∧ mark x = true ∧ ∀ y ∈ before, mark y = false

/-- Chunks that start with marks can be told from their text. -/
theorem starts_unique {u v : List α} {cs ds : List (List α)} (free : ∀ z ∈ u, mark z = false)
    (free' : ∀ z ∈ v, mark z = false) (starts : ∀ c ∈ cs, Starts mark c)
    (starts' : ∀ d ∈ ds, Starts mark d) (same : u ++ cs.flatten = v ++ ds.flatten) : u = v ∧ cs = ds := by
  induction cs generalizing u v ds with
  | nil =>
    cases ds with
    | nil => simpa using same
    | cons d ds =>
      obtain ⟨x, rest, rfl, marked, -⟩ := starts' d mem_cons_self
      have inside : x ∈ u := by
        rw [flatten_nil, append_nil] at same
        simp [same]
      rw [free x inside] at marked
      exact absurd marked Bool.false_ne_true
  | cons c cs ih =>
    obtain ⟨x, rest, rfl, marked, restFree⟩ := starts c mem_cons_self
    cases ds with
    | nil =>
      have inside : x ∈ v := by
        rw [flatten_nil, append_nil] at same
        simp [← same]
      rw [free' x inside] at marked
      exact absurd marked Bool.false_ne_true
    | cons d ds =>
      obtain ⟨y, rest', rfl, marked', restFree'⟩ := starts' d mem_cons_self
      obtain ⟨rfl, rfl, later⟩ := append_mark_unique free free' marked marked' same
      obtain ⟨rfl, rfl⟩ := ih restFree restFree' (fun c mem => starts c (mem_cons_of_mem _ mem))
        (fun d mem => starts' d (mem_cons_of_mem _ mem)) later
      exact ⟨rfl, rfl⟩

variable (mark) in
/-- Chunks that end with marks can be told from their text. -/
theorem ends_unique {cs ds : List (List α)} (ends : ∀ c ∈ cs, Ends mark c)
    (ends' : ∀ d ∈ ds, Ends mark d) (same : cs.flatten = ds.flatten) : cs = ds := by
  induction cs generalizing ds with
  | nil =>
    cases ds with
    | nil => rfl
    | cons d ds =>
      obtain ⟨before, x, rfl, -, -⟩ := ends' d mem_cons_self
      simp at same
  | cons c cs ih =>
    obtain ⟨before, x, rfl, marked, free⟩ := ends c mem_cons_self
    cases ds with
    | nil => simp at same
    | cons d ds =>
      obtain ⟨before', y, rfl, marked', free'⟩ := ends' d mem_cons_self
      simp only [flatten_cons, append_assoc, singleton_append] at same
      obtain ⟨rfl, rfl, later⟩ := append_mark_unique free free' marked marked' same
      rw [ih (fun c mem => ends c (mem_cons_of_mem _ mem))
        (fun d mem => ends' d (mem_cons_of_mem _ mem)) later]

/-- Lists that agree one by one in one respect agree in every other that depends on it. -/
theorem map_eq_map_of {β γ δ : Type} {f : α → γ} {g : β → γ} {F : α → δ} {G : β → δ} {as : List α}
    {bs : List β} (same : as.map f = bs.map g)
    (depends : ∀ a ∈ as, ∀ b ∈ bs, f a = g b → F a = G b) : as.map F = bs.map G := by
  induction as generalizing bs with
  | nil =>
    cases bs with
    | nil => rfl
    | cons b bs => simp at same
  | cons a as ih =>
    cases bs with
    | nil => simp at same
    | cons b bs =>
      simp only [map_cons, cons.injEq] at same ⊢
      exact ⟨depends a mem_cons_self b mem_cons_self same.1,
        ih same.2 fun a inAs b inBs => depends a (mem_cons_of_mem _ inAs) b (mem_cons_of_mem _ inBs)⟩

end Chunks

def atomKinds : List Kind := [.tokenRef, .ruleRef, .stringLiteral, .lexerCharSet]

def suffixKinds : List Kind := [.question, .star, .plus]

def alternativeKinds : List Kind := .pound :: (atomKinds ++ suffixKinds)

/-- An atom and what may be written behind it. -/
def IsElement (lexemes : List Lexeme) : Prop :=
  ∃ atom rest, lexemes = atom :: rest ∧ atom.kind ∈ atomKinds ∧ ∀ l ∈ rest, l.kind ∈ suffixKinds

theorem IsElement.starts {lexemes : List Lexeme} (shape : IsElement lexemes) :
    Starts (fun l => atomKinds.contains l.kind) lexemes := by
  have apart : ∀ kind ∈ suffixKinds, atomKinds.contains kind = false := by decide
  obtain ⟨atom, rest, rfl, isAtom, isSuffix⟩ := shape
  exact ⟨atom, rest, rfl, contains_iff_mem.mpr isAtom, fun l mem => apart _ (isSuffix l mem)⟩

theorem IsElement.kind_mem {lexemes : List Lexeme} (shape : IsElement lexemes) :
    ∀ l ∈ lexemes, l.kind ∈ atomKinds ++ suffixKinds := by
  obtain ⟨atom, rest, rfl, isAtom, isSuffix⟩ := shape
  intro l mem
  rcases mem_cons.mp mem with rfl | later
  · exact mem_append_left _ isAtom
  · exact mem_append_right _ (isSuffix l later)

/-- The lexemes of an alternative, cut into its elements and its label with the sign before it. -/
structure IsAlternative (elements : List (List Lexeme)) (label : Option (Lexeme × Lexeme))
    (lexemes : List Lexeme) : Prop where
  text : lexemes = elements.flatten ++ (label.map fun l => [l.1, l.2]).toList.flatten
  elements : ∀ e ∈ elements, IsElement e
  label : ∀ l ∈ label, l.1.kind = .pound ∧ l.2.kind ∈ atomKinds

namespace IsAlternative

variable {elements elements' : List (List Lexeme)} {label label' : Option (Lexeme × Lexeme)}
  {lexemes : List Lexeme}

variable (shape : IsAlternative elements label lexemes)

include shape

theorem elements_kind_mem :
    ∀ l ∈ elements.flatten, l.kind ∈ atomKinds ++ suffixKinds := by
  intro l mem
  obtain ⟨e, inElements, inside⟩ := mem_flatten.mp mem
  exact (shape.elements e inElements).kind_mem l inside

theorem kind_mem :
    ∀ l ∈ lexemes, l.kind ∈ alternativeKinds := by
  intro l mem
  rw [shape.text] at mem
  rcases mem_append.mp mem with inElements | inLabel
  · exact mem_cons_of_mem _ (shape.elements_kind_mem l inElements)
  · cases label with
    | none => simp at inLabel
    | some label =>
      obtain ⟨isPound, isName⟩ := shape.label label rfl
      simp only [Option.map_some, Option.toList_some, flatten_cons, flatten_nil,
        append_nil, mem_cons, not_mem_nil, or_false] at inLabel
      rcases inLabel with rfl | rfl
      · exact mem_cons.mpr (.inl isPound)
      · exact mem_cons_of_mem _ (mem_append_left _ isName)

theorem label_starts :
    ∀ c ∈ (label.map fun l => [l.1, l.2]).toList, Starts (fun l : Lexeme => l.kind == .pound) c := by
  have noPound : ∀ kind ∈ atomKinds, (kind == .pound) = false := by decide
  intro c mem
  obtain ⟨l, isLabel, rfl⟩ := Option.map_eq_some_iff.mp (Option.mem_toList.mp mem)
  obtain ⟨isPound, isName⟩ := shape.label l isLabel
  exact ⟨l.1, [l.2], rfl, by simp [isPound], by simpa using noPound _ isName⟩

/-- An alternative can be cut in one way only. -/
theorem unique
    (shape' : IsAlternative elements' label' lexemes) : elements = elements' ∧ label = label' := by
  have noPound : ∀ kind ∈ atomKinds ++ suffixKinds, (kind == .pound) = false := by decide
  obtain ⟨sameBody, sameLabel⟩ := starts_unique
    (fun l mem => noPound _ (shape.elements_kind_mem l mem))
    (fun l mem => noPound _ (shape'.elements_kind_mem l mem))
    shape.label_starts shape'.label_starts (shape.text.symm.trans shape'.text)
  refine ⟨(starts_unique (u := []) (v := []) (by simp) (by simp) (fun e mem => (shape.elements e mem).starts)
    (fun e mem => (shape'.elements e mem).starts) sameBody).2, ?_⟩
  cases label <;> cases label' <;> simp_all [Prod.ext_iff]

end IsAlternative

/-- The lexemes of a rule, cut into its modifiers, its name and its alternatives, of which all but the
first have a bar before them. -/
structure IsRule (modifiers : List Lexeme) (name : Lexeme) (first : List Lexeme)
    (others : List (List Lexeme)) (lexemes : List Lexeme) : Prop where
  text : ∃ colon semicolon : Lexeme, colon.kind = .colon ∧ semicolon.kind = .semicolon ∧
    lexemes = modifiers ++ name :: colon :: (first ++ others.flatten ++ [semicolon])
  modifiers : ∀ m ∈ modifiers, m.kind = .fragmentKeyword
  name : name.kind = .ruleRef ∨ name.kind = .tokenRef
  first : ∀ l ∈ first, l.kind ∈ alternativeKinds
  others : ∀ o ∈ others, ∃ bar rest, o = bar :: rest ∧ bar.kind = .bar ∧
    ∀ l ∈ rest, l.kind ∈ alternativeKinds

namespace IsRule

variable {modifiers modifiers' first first' lexemes : List Lexeme} {name name' : Lexeme}
  {others others' : List (List Lexeme)}

variable (shape : IsRule modifiers name first others lexemes)

include shape

theorem others_start :
    ∀ o ∈ others, Starts (fun l : Lexeme => l.kind == .bar) o := by
  have noBar : ∀ kind ∈ alternativeKinds, (kind == .bar) = false := by decide
  intro o mem
  obtain ⟨bar, rest, rfl, isBar, inside⟩ := shape.others o mem
  exact ⟨bar, rest, rfl, by simp [isBar], fun l later => noBar _ (inside l later)⟩

theorem split :
    ∃ front semicolon, lexemes = front ++ [semicolon] ∧ semicolon.kind = .semicolon ∧
      ∀ l ∈ front, l.kind ∈ .fragmentKeyword :: .colon :: .bar :: alternativeKinds := by
  have isRef : ∀ kind, kind = .ruleRef ∨ kind = .tokenRef → kind ∈ alternativeKinds := by
    rintro _ (rfl | rfl) <;> decide
  obtain ⟨colon, semicolon, isColon, isSemicolon, text⟩ := shape.text
  refine ⟨modifiers ++ name :: colon :: (first ++ others.flatten), semicolon, by simp [text],
    isSemicolon, fun l mem => ?_⟩
  simp only [mem_append, mem_cons] at mem ⊢
  rcases mem with isModifier | rfl | rfl | inFirst | inOthers
  · exact .inl (shape.modifiers l isModifier)
  · exact .inr (.inr (.inr (isRef _ shape.name)))
  · exact .inr (.inl isColon)
  · exact .inr (.inr (.inr (shape.first l inFirst)))
  · obtain ⟨o, mem, inOther⟩ := mem_flatten.mp inOthers
    obtain ⟨bar, rest, rfl, isBar, others⟩ := shape.others o mem
    rcases mem_cons.mp inOther with rfl | later
    · exact .inr (.inr (.inl isBar))
    · exact .inr (.inr (.inr (others l later)))

/-- A rule ends at its only semicolon. -/
theorem ends :
    Ends (fun l : Lexeme => l.kind == .semicolon) lexemes := by
  have inside : ∀ kind ∈ Kind.fragmentKeyword :: .colon :: .bar :: alternativeKinds,
      (kind == .semicolon) = false := by
    decide
  obtain ⟨front, semicolon, text, isSemicolon, kinds⟩ := shape.split
  exact ⟨front, semicolon, text, by simp [isSemicolon], fun l mem => inside _ (kinds l mem)⟩

/-- A rule can be cut in one way only. -/
theorem unique
    (shape' : IsRule modifiers' name' first' others' lexemes) :
    modifiers = modifiers' ∧ name = name' ∧ first = first' ∧ others = others' := by
  have noBar : ∀ kind ∈ alternativeKinds, (kind == .bar) = false := by decide
  have isName : ∀ {l : Lexeme}, l.kind = .ruleRef ∨ l.kind = .tokenRef →
      (l.kind != .fragmentKeyword) = true := by
    rintro l (isRef | isRef) <;> simp [isRef]
  obtain ⟨colon, semicolon, -, -, text⟩ := shape.text
  obtain ⟨colon', semicolon', -, -, text'⟩ := shape'.text
  obtain ⟨sameModifiers, sameName, rest⟩ :=
    @append_mark_unique _ (fun l : Lexeme => l.kind != .fragmentKeyword) _ _ _ _ _ _
      (fun m mem => by simp [shape.modifiers m mem])
      (fun m mem => by simp [shape'.modifiers m mem]) (isName shape.name) (isName shape'.name)
      (text.symm.trans text')
  have body := (append_inj' (cons.inj rest).2 rfl).1
  obtain ⟨sameFirst, sameOthers⟩ := starts_unique (fun l mem => noBar _ (shape.first l mem))
    (fun l mem => noBar _ (shape'.first l mem)) shape.others_start shape'.others_start body
  exact ⟨sameModifiers, sameName, sameFirst, sameOthers⟩

end IsRule

end GrammarLint.Lexical
