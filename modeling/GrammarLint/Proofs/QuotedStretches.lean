import Mathlib.Data.List.Basic

open List

namespace GrammarLint.Text

/-- A stretch of a text: a character, a literal with its quotes, or all from an opening bracket or brace
on. -/
inductive Stretch where
  | plain (c : Char)
  | quoted (literal : List Char)
  | rest (tail : List Char)
deriving DecidableEq

namespace Stretch

def chars : Stretch → List Char
  | plain c => [c]
  | quoted literal => literal
  | rest tail => tail

/-- The stretch with another literal, if it is one. -/
def map (σ : String → String) : Stretch → Stretch
  | plain c => plain c
  | quoted literal => quoted (σ (String.ofList literal)).toList
  | rest tail => rest tail

end Stretch

/-- Where a reader of literals is, with what it has read of one. -/
inductive Quoting where
  | outside
  | inside (read : List Char)
  | escaped (read : List Char)

def stretchesFrom : Quoting → List Char → List Stretch
  | .outside, [] => []
  | .inside read, [] => [.rest read]
  | .escaped read, [] => [.rest read]
  | .outside, c :: later =>
    if c = '\'' then stretchesFrom (.inside [c]) later
    else if c = '[' ∨ c = '\x7b' then [.rest (c :: later)]
    else .plain c :: stretchesFrom .outside later
  | .escaped read, c :: later => stretchesFrom (.inside (read ++ [c])) later
  | .inside read, c :: later =>
    if c = '\\' then stretchesFrom (.escaped (read ++ [c])) later
    else if c = '\'' then .quoted (read ++ [c]) :: stretchesFrom .outside later
    else stretchesFrom (.inside (read ++ [c])) later

/-- The literals of a text up to its first bracket or brace, and what is around them. -/
def stretches (text : List Char) : List Stretch := stretchesFrom .outside text

def reword (σ : String → String) (text : String) : String :=
  String.ofList (((stretches text.toList).map (Stretch.map σ)).flatMap Stretch.chars)

/-- What may stand between the quotes of a literal. -/
inductive LiteralBody : List Char → Prop
  | nil : LiteralBody []
  | plain {c : Char} {body : List Char} : c ≠ '\'' → c ≠ '\\' → LiteralBody body → LiteralBody (c :: body)
  | escape {c : Char} {body : List Char} : LiteralBody body → LiteralBody ('\\' :: c :: body)

def IsLiteral (text : List Char) : Prop := ∃ body, LiteralBody body ∧ text = '\'' :: (body ++ ['\''])

theorem IsLiteral.head? {text : List Char} (isLiteral : IsLiteral text) : text.head? = some '\'' := by
  obtain ⟨body, -, rfl⟩ := isLiteral
  rfl

theorem LiteralBody.append {u v : List Char} (first : LiteralBody u) (second : LiteralBody v) :
    LiteralBody (u ++ v) := by
  induction first with
  | nil => exact second
  | plain noQuote noEscape _ ih => exact .plain noQuote noEscape ih
  | escape _ ih => exact .escape ih

theorem LiteralBody.of_plain {text : List Char} (noQuote : '\'' ∉ text) (noEscape : '\\' ∉ text) :
    LiteralBody text := by
  induction text with
  | nil => exact .nil
  | cons c text ih =>
    simp only [mem_cons, not_or] at noQuote noEscape
    exact .plain (Ne.symm noQuote.1) (Ne.symm noEscape.1) (ih noQuote.2 noEscape.2)

def Quiet (text : List Char) : Prop := ∀ c ∈ text, c ∉ ['\'', '[', '\x7b']

instance (text : List Char) : Decidable (Quiet text) :=
  decidableBAll (· ∉ ['\'', '[', '\x7b']) text

/-- Stretches that a text falls into. -/
inductive Legible : List Stretch → Prop
  | nil : Legible []
  | plain {c : Char} {later : List Stretch} : c ∉ ['\'', '[', '\x7b'] → Legible later →
      Legible (.plain c :: later)
  | quoted {literal : List Char} {later : List Stretch} : IsLiteral literal → Legible later →
      Legible (.quoted literal :: later)
  | rest {c : Char} {tail : List Char} : c = '[' ∨ c = '\x7b' → Legible [.rest (c :: tail)]

theorem Legible.of_quiet {front : List Char} {later : List Stretch} (quiet : Quiet front)
    (legible : Legible later) : Legible (front.map .plain ++ later) := by
  induction front with
  | nil => exact legible
  | cons c front ih =>
    obtain ⟨here, behind⟩ := forall_mem_cons.mp quiet
    exact .plain here (ih behind)

theorem chars_plain (front : List Char) : (front.map Stretch.plain).flatMap Stretch.chars = front := by
  induction front with
  | nil => rfl
  | cons c front ih => simp [Stretch.chars, ih]

theorem stretchesFrom_inside {body : List Char} (isBody : LiteralBody body) (read later : List Char) :
    stretchesFrom (.inside read) (body ++ '\'' :: later) =
      .quoted (read ++ body ++ ['\'']) :: stretchesFrom .outside later := by
  induction isBody generalizing read with
  | nil => simp [stretchesFrom]
  | plain noQuote noEscape _ ih => simp [stretchesFrom, noQuote, noEscape, ih]
  | escape _ ih => simp [stretchesFrom, ih]

theorem stretches_literal {literal : List Char} (isLiteral : IsLiteral literal) (later : List Char) :
    stretches (literal ++ later) = .quoted literal :: stretches later := by
  obtain ⟨body, isBody, rfl⟩ := isLiteral
  have read := stretchesFrom_inside isBody ['\''] later
  simpa [stretches, stretchesFrom] using read

section Reading

variable {ps qs : List Stretch} {σ : String → String}

/-- The stretches of a text are found again. -/
theorem Legible.stretches_eq (legible : Legible ps) : stretches (ps.flatMap Stretch.chars) = ps := by
  induction legible with
  | nil => rfl
  | plain noMark _ ih =>
    simp only [mem_cons, not_mem_nil, or_false, not_or] at noMark
    rw [flatMap_cons, Stretch.chars, singleton_append, stretches, stretchesFrom,
      if_neg noMark.1, if_neg (by simp [noMark])]
    exact congrArg _ ih
  | quoted isLiteral _ ih => rw [flatMap_cons, Stretch.chars, stretches_literal isLiteral, ih]
  | @rest c tail bracket =>
    have noQuote : c ≠ '\'' := by
      rintro rfl
      simp at bracket
    simp [Stretch.chars, stretches, stretchesFrom, noQuote, bracket]

theorem Legible.map (legible : Legible ps)
    (literals : ∀ literal, .quoted literal ∈ ps → IsLiteral (σ (String.ofList literal)).toList) :
    Legible (ps.map (Stretch.map σ)) := by
  induction legible with
  | nil => exact .nil
  | plain noMark _ ih =>
    exact .plain noMark (ih fun literal mem => literals literal (mem_cons_of_mem _ mem))
  | quoted _ _ ih =>
    exact .quoted (literals _ mem_cons_self)
      (ih fun literal mem => literals literal (mem_cons_of_mem _ mem))
  | rest bracket => exact .rest bracket

theorem Legible.reword_eq (legible : Legible ps) :
    reword σ (String.ofList (ps.flatMap Stretch.chars)) =
      String.ofList ((ps.map (Stretch.map σ)).flatMap Stretch.chars) := by
  rw [reword, String.toList_ofList, legible.stretches_eq]

/-- Whether two texts agree does not depend on what their literals are, as long as they are different or
not. -/
theorem Legible.agree_iff (legible : Legible ps) (legible' : Legible qs)
    (literals : ∀ literal, .quoted literal ∈ ps ++ qs → IsLiteral (σ (String.ofList literal)).toList)
    (injective : ∀ a b, .quoted a ∈ ps ++ qs → .quoted b ∈ ps ++ qs →
      σ (String.ofList a) = σ (String.ofList b) → a = b) :
    (ps.map (Stretch.map σ)).flatMap Stretch.chars = (qs.map (Stretch.map σ)).flatMap Stretch.chars ↔
      ps.flatMap Stretch.chars = qs.flatMap Stretch.chars := by
  constructor
  · intro same
    have mapped := congrArg stretches same
    rw [(legible.map fun _ mem => literals _ (mem_append_left _ mem)).stretches_eq,
      (legible'.map fun _ mem => literals _ (mem_append_right _ mem)).stretches_eq] at mapped
    have each : ∀ p ∈ ps, ∀ q ∈ qs, p.map σ = q.map σ → p = q := by
      intro p inPs q inQs
      cases p <;> cases q <;> simp only [Stretch.map, reduceCtorEq, IsEmpty.forall_iff, imp_self]
      intro equal
      rw [Stretch.quoted.injEq, String.toList_inj] at equal
      rw [Stretch.quoted.injEq]
      exact injective _ _ (mem_append_left _ inPs) (mem_append_right _ inQs) equal
    have length : ps.length = qs.length := by simpa using congrArg length mapped
    have equal : ps = qs := by
      refine ext_getElem length fun i inPs inQs =>
        each _ (getElem_mem inPs) _ (getElem_mem inQs) ?_
      have here := congrArg (·[i]?) mapped
      simpa [inPs, inQs] using here
    rw [equal]
  · intro same
    have equal : ps = qs := by rw [← legible.stretches_eq, ← legible'.stretches_eq, same]
    rw [equal]

/-- The text falls into stretches, with literals among the given ones. -/
def Worded (literals : List String) (text : String) : Prop :=
  ∃ ps, Legible ps ∧ text.toList = ps.flatMap Stretch.chars ∧
    ∀ literal, .quoted literal ∈ ps → String.ofList literal ∈ literals

theorem Worded.of_quiet {text : String} (quiet : Quiet text.toList) (literals : List String) :
    Worded literals text := by
  refine ⟨text.toList.map .plain, ?_, (chars_plain _).symm, by simp⟩
  simpa using Legible.of_quiet quiet .nil

theorem reword_quiet {text : String} (quiet : Quiet text.toList) : reword σ text = text := by
  have legible : Legible (text.toList.map .plain) := by simpa using Legible.of_quiet quiet .nil
  have same := @Legible.reword_eq _ σ legible
  rw [chars_plain, map_map, String.ofList_toList] at same
  rw [same, show Stretch.map σ ∘ Stretch.plain = Stretch.plain from rfl, chars_plain, String.ofList_toList]

/-- Texts that differ still do with other literals. -/
theorem Worded.reword_eq_iff {literals : List String} {text other : String}
    (valid : ∀ s ∈ literals, IsLiteral (σ s).toList)
    (injective : ∀ s ∈ literals, ∀ t ∈ literals, σ s = σ t → s = t) (worded : Worded literals text)
    (worded' : Worded literals other) : reword σ text = reword σ other ↔ text = other := by
  obtain ⟨ps, legible, chars, known⟩ := worded
  obtain ⟨qs, legible', chars', known'⟩ := worded'
  have among : ∀ literal, .quoted literal ∈ ps ++ qs → String.ofList literal ∈ literals := fun literal inside =>
    (mem_append.mp inside).elim (known literal) (known' literal)
  have agree := legible.agree_iff legible' (fun literal inside => valid _ (among literal inside))
    fun a b inA inB same => String.ofList_injective (injective _ (among a inA) _ (among b inB) same)
  rw [← chars, ← chars', String.toList_inj] at agree
  rw [← agree, ← String.ofList_toList (s := text), ← String.ofList_toList (s := other), chars, chars',
    legible.reword_eq, legible'.reword_eq, String.ofList_inj]

end Reading

end GrammarLint.Text
