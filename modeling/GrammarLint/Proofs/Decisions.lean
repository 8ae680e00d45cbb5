import GrammarLint.Phrase.Parser
import GrammarLint.Proofs.Lookahead

open List

namespace GrammarLint.Phrase

open Lexical (Kind Token)

/-- The form stands in a phrase of the category, followed by the rest up to the end of the phrase. -/
inductive InPlace (cat : Category) : List Form → Form → Prop
  | whole : InPlace cat [] cat.form
  | first : InPlace cat rest (.seq f g) → InPlace cat (g :: rest) f
  | second : InPlace cat rest (.seq f g) → InPlace cat rest g
  | alternative : InPlace cat rest (.choice index lookahead alternatives) →
      f ∈ alternatives.alternatives → InPlace cat rest f
  | optional : InPlace cat rest (.optional index lookahead f) → InPlace cat rest f
  | star : InPlace cat rest (.star index back lookahead greedy f) →
      InPlace cat rest (.rounds back lookahead greedy f)
  | plus : InPlace cat rest (.plus index back f) → InPlace cat rest (.rounds back .one true f)
  | round : InPlace cat rest (.rounds back lookahead greedy f) →
      InPlace cat (.rounds back lookahead greedy f :: rest) f

variable {cat : Category} {rest : List Form} {form : Form} {kind : Kind} {p : Progress}
  {calls : List Point} {lookahead : Lookahead}

theorem InPlace.located (inPlace : InPlace cat rest form) : Located cat (form :: rest) := by
  induction inPlace with
  | whole => exact located_form cat
  | first _ ih => exact ih.seq
  | second _ ih => exact ih.seq.tail
  | alternative _ mem ih => exact ih.choice.alternative mem
  | optional _ ih => exact ih.optional
  | star _ ih => exact ih.star
  | plus _ ih => exact ih
  | round _ ih => exact ih.rounds

/-- Whether something holds of every form that stands in a form, which may be the alternatives of a
choice. Alternatives stand nowhere else. -/
def Form.holds (check : List Form → Form → Bool) (ofChoice : Bool) (rest : List Form) : Form → Bool
  | .seq f g => check rest (.seq f g) && f.holds check false (g :: rest) && g.holds check false rest
  | .alt f g => ofChoice && f.holds check true rest && g.holds check true rest
  | .choice index lookahead f => check rest (.choice index lookahead f) && f.holds check true rest
  | .optional index lookahead f =>
    check rest (.optional index lookahead f) && f.holds check false rest
  | .star index back lookahead greedy f =>
    check rest (.star index back lookahead greedy f) &&
      check rest (.rounds back lookahead greedy f) &&
      f.holds check false (.rounds back lookahead greedy f :: rest)
  | .plus index back f =>
    check rest (.plus index back f) && check rest (.rounds back .one true f) &&
      f.holds check false (.rounds back .one true f :: rest)
  | .rounds back lookahead greedy f =>
    check rest (.rounds back lookahead greedy f) &&
      f.holds check false (.rounds back lookahead greedy f :: rest)
  | .empty => check rest .empty
  | .token index kind => check rest (.token index kind)
  | .oneOf index kinds => check rest (.oneOf index kinds)
  | .call index callee => check rest (.call index callee)

variable {f alternatives : Form} {first : First} {firsts : List First} {point : Point}

theorem Form.holds_alternative {check : List Form → Form → Bool} {ofChoice : Bool}
    (holds : alternatives.holds check ofChoice rest = true) (mem : f ∈ alternatives.alternatives) :
    f.holds check false rest = true := by
  induction alternatives generalizing ofChoice with
  | alt g h first second =>
    simp only [Form.holds, Bool.and_eq_true] at holds
    rcases mem_append.mp mem with left | right
    · exact first holds.1.2 left
    · exact second holds.2 right
  | _ =>
    cases mem_singleton.mp mem
    exact holds

theorem InPlace.holds {check : List Form → Form → Bool} (inPlace : InPlace cat rest form)
    (checked : cat.form.holds check false [] = true) : form.holds check false rest = true := by
  induction inPlace with
  | whole => exact checked
  | alternative _ mem ih =>
    simp only [Form.holds, Bool.and_eq_true] at ih
    exact Form.holds_alternative ih.2 mem
  | first _ ih | second _ ih | optional _ ih | star _ ih | plus _ ih | round _ ih =>
    simp only [Form.holds, Bool.and_eq_true] at ih ⊢
    tauto

/-- What is checked of all forms of all categories holds of any form in its place. -/
theorem InPlace.check (inPlace : InPlace cat rest form)
    (check : Category → List Form → Form → Bool)
    (checked : ∀ c ∈ Category.all, c.form.holds (check c) false [] = true) :
    check cat rest form = true := by
  have holds := inPlace.holds (checked cat (mem_all cat))
  cases form <;> simp only [Form.holds, Bool.and_eq_true, Bool.false_and] at holds <;> tauto

theorem InPlace.not_alt {g : Form} : ¬InPlace cat rest (.alt f g) := by
  intro inPlace
  have checked : ∀ c ∈ Category.all, c.form.holds (fun _ _ => true) false [] = true := by
    decide +kernel
  have holds := inPlace.holds (checked cat (mem_all cat))
  simp [Form.holds] at holds

/-- The tokens by which it is decided to go on here. -/
def First.predicted (cat : Category) (first : First) : List Kind :=
  first.reads.flatMap (·.kinds) ++ if first.passable then cat.follow else []

theorem First.mem_predicted
    (goesOn : first.admits kind = true ∨ first.passable = true ∧ cat.beyond.admits kind = true) :
    kind ∈ first.predicted cat := by
  unfold First.predicted
  rcases goesOn with admits | ⟨passable, beyond⟩
  · obtain ⟨read, inReads, inKinds⟩ := any_eq_true.mp admits
    exact mem_append_left _ (mem_flatMap.mpr ⟨read, inReads, by simpa using inKinds⟩)
  · rw [if_pos passable]
    exact mem_append_right _ (Category.mem_follow beyond)

def First.apart (cat : Category) (a b : First) : Bool :=
  (a.predicted cat).all fun kind => !(b.predicted cat).contains kind

theorem First.not_apart {a b : First} (apart : a.apart cat b = true)
    (inA : kind ∈ a.predicted cat) : kind ∉ b.predicted cat := by
  simpa using all_eq_true.mp apart kind inA

/-- Where the next token alone decides, it decides. -/
def Form.decisive (cat : Category) (rest : List Form) : Form → Bool
  | .choice _ .one alternatives =>
    decide ((alternatives.alternatives.map fun f => firstOf cat (f :: rest)).Pairwise
      fun a b => a.apart cat b = true)
  | .optional _ .one f => (firstOf cat (f :: rest)).apart cat (firstOf cat rest)
  | .rounds back .one greedy f =>
    (firstOf cat (f :: .rounds back .one greedy f :: rest)).apart cat
      (firstOf cat rest)
  | _ => true

theorem InPlace.decisive (inPlace : InPlace cat rest form) : form.decisive cat rest = true := by
  refine inPlace.check (fun cat rest form => form.decisive cat rest) ?_
  decide +kernel

def Progress.kinds (p : Progress) : List Kind := p.ahead.map (·.kind) ++ [.endOfFile]

/-- The end of the file stands behind the tokens, and nowhere else. -/
structure Progress.Proper (p : Progress) : Prop where
  finish : p.finish.kind = .endOfFile
  inner : ∀ token ∈ p.ahead, token.kind ≠ .endOfFile

theorem Progress.Proper.kinds_eq (proper : p.Proper) : ∃ later, p.kinds = p.current.kind :: later := by
  unfold Progress.kinds Progress.current
  cases ahead : p.ahead with
  | nil => exact ⟨[], by simp [proper.finish]⟩
  | cons token rest => exact ⟨rest.map (·.kind) ++ [.endOfFile], by simp⟩

/-- What is accepted from here on is predicted by the current token. -/
theorem Accepts.predicted {forms : List Form} (accepts : Accepts cat forms calls p.kinds)
    (proper : p.Proper) (located : Located cat forms) (chain : Chain cat calls) :
    (firstOf cat forms).admits p.current.kind = true ∨
      (firstOf cat forms).passable = true ∧ cat.beyond.admits p.current.kind = true := by
  obtain ⟨later, same⟩ := proper.kinds_eq
  rw [same] at accepts
  exact accepts.first_admits located chain

/-- Where no token decides for two alternatives, the one that may go on is chosen. -/
theorem chooseByToken_of_apart (apart : firsts.Pairwise fun a b => a.apart cat b = true)
    {number : Nat} (isFirst : firsts[number]? = some first)
    (goesOn : first.admits kind = true ∨ first.passable = true ∧ cat.beyond.admits kind = true) :
    chooseByToken cat firsts kind = some (number + 1) := by
  induction firsts generalizing number with
  | nil => simp at isFirst
  | cons other firsts ih =>
    obtain ⟨fromOther, apart⟩ := pairwise_cons.mp apart
    simp only [chooseByToken, List.findIdx?_cons] at ih ⊢
    cases number with
    | zero =>
      cases (Option.some.inj isFirst : other = first)
      rw [if_pos (by simpa using goesOn)]
      rfl
    | succ number =>
      have apartFirst := fromOther first (mem_of_getElem? isFirst)
      have skipped : ¬(other.admits kind || other.passable && cat.beyond.admits kind) = true := by
        intro both
        exact First.not_apart apartFirst (First.mem_predicted (by simpa using both))
          (First.mem_predicted goesOn)
      rw [if_neg skipped]
      obtain ⟨found, isFound, same⟩ := Option.map_eq_some_iff.mp (ih apart isFirst)
      simp [isFound, ← same]

/-- A choice is decided for an alternative that accepts what is ahead, if there is one. -/
theorem decideBetween_accepts {index : Nat}
    (inPlace : InPlace cat rest (.choice index lookahead alternatives)) (proper : p.Proper)
    (chain : Chain cat calls)
    (accepts : Accepts cat (.choice index lookahead alternatives :: rest) calls p.kinds) :
    ∃ number f, decideBetween lookahead ⟨cat, index⟩ calls
        (alternatives.alternatives.map fun f => firstOf cat (f :: rest)) p =
          .take (number + 1) ∧ alternatives.alternatives[number]? = some f ∧
      Accepts cat (f :: rest) calls p.kinds := by
  have located : ∀ f ∈ alternatives.alternatives, Located cat (f :: rest) := fun f mem =>
    inPlace.located.choice.alternative mem
  obtain ⟨f, mem, goesOn⟩ : ∃ f ∈ alternatives.alternatives,
      Accepts cat (f :: rest) calls p.kinds := by
    cases accepts with
    | choice accepts => exact accepts.alternative
  cases lookahead with
  | one =>
    obtain ⟨number, isF⟩ := mem_iff_getElem?.mp mem
    have chosen := chooseByToken_of_apart (of_decide_eq_true inPlace.decisive)
      (by rw [getElem?_map, isF]; rfl) (goesOn.predicted proper (located f mem) chain)
    exact ⟨number, f, by simp [decideBetween, chosen], isF, goesOn⟩
  | full =>
    obtain ⟨number, taken, predicted, isTaken, goesOn⟩ := predict_sound
     proper.finish
      proper.inner (by simpa using located) chain (mem_map_of_mem mem) goesOn
    rw [getElem?_map, Option.map_eq_some_iff] at isTaken
    obtain ⟨g, isG, rfl⟩ := isTaken
    rw [map_map] at predicted
    exact ⟨number, g, predicted, isG, goesOn⟩

/-- Whether to enter is decided so that what is ahead is accepted, if it can be. -/
theorem decideEntry_accepts (cat : Category) (inside outside : List Form) (index : Nat)
    (lookahead : Lookahead) (calls : List Point) (p : Progress) (greedy : Bool)
    (decisive : lookahead = .one →
      (firstOf cat inside).apart cat (firstOf cat outside) = true)
    (entered : Located cat inside) (left : Located cat outside) (proper : p.Proper)
    (chain : Chain cat calls)
    (accepts : Accepts cat inside calls p.kinds ∨ Accepts cat outside calls p.kinds) :
    ∃ enter, decideEntry lookahead greedy ⟨cat, index⟩ calls (firstOf cat inside)
        (firstOf cat outside) p = .ok enter ∧
      Accepts cat (if enter then inside else outside) calls p.kinds := by
  cases lookahead with
  | one =>
    refine ⟨_, rfl, ?_⟩
    rcases accepts with goesOn | goesOn
    · have predicted := goesOn.predicted proper entered chain
      have chosen : chooseByToken cat [firstOf cat inside] p.current.kind = some 1 :=
        chooseByToken_of_apart (pairwise_singleton _ _) rfl predicted
      simpa [chosen] using goesOn
    · have predicted := goesOn.predicted proper left chain
      have skipped : ¬((firstOf cat inside).admits p.current.kind ||
          (firstOf cat inside).passable && cat.beyond.admits p.current.kind) = true := by
        intro both
        exact First.not_apart (decisive rfl) (First.mem_predicted (by simpa using both))
          (First.mem_predicted predicted)
      simpa [chooseByToken, skipped] using goesOn
  | full =>
    -- A loop that is not greedy prefers to be left, so its options stand the other way round.
    have options : ∃ options,
        options = (if greedy then [inside, outside] else [outside, inside]) := ⟨_, rfl⟩
    obtain ⟨options, same⟩ := options
    have members : ∀ option, option ∈ options ↔ option = inside ∨ option = outside := by
      rw [same]
      cases greedy <;> simp [or_comm]
    obtain ⟨option, member, goesOn⟩ : ∃ option ∈ options, Accepts cat option calls p.kinds := by
      rcases accepts with goesOn | goesOn
      · exact ⟨inside, (members _).mpr (.inl rfl), goesOn⟩
      · exact ⟨outside, (members _).mpr (.inr rfl), goesOn⟩
    have located : ∀ option ∈ options, Located cat option := by
      intro option member
      rcases (members option).mp member with rfl | rfl
      · exact entered
      · exact left
    obtain ⟨number, taken, predicted, isTaken, goesOn⟩ :=
      predict_sound proper.finish proper.inner located chain member goesOn
    refine ⟨(number + 1 == 1) == greedy, ?_, ?_⟩
    · have firsts : (if greedy then [firstOf cat inside, firstOf cat outside]
          else [firstOf cat outside, firstOf cat inside]) =
          options.map (firstOf cat) := by
        rw [same]
        cases greedy <;> rfl
      simp [decideEntry, firsts, predicted]
    · rw [same] at isTaken
      match number, greedy, isTaken with
      | 0, true, isTaken | 1, false, isTaken | 0, false, isTaken | 1, true, isTaken =>
        cases Option.some.inj isTaken
        exact goesOn
      | _ + 2, true, isTaken | _ + 2, false, isTaken => simp at isTaken

/-- A choice is decided for no alternative but one that may begin with the current token, or may be
passed. -/
theorem decideBetween_opens {alternative : Nat}
    (decided : decideBetween lookahead point calls firsts p = .take alternative) :
    ∃ number first, alternative = number + 1 ∧ firsts[number]? = some first ∧
      (first.admits p.current.kind = true ∨ first.passable = true) := by
  cases lookahead with
  | one =>
    simp only [decideBetween] at decided
    split at decided
    · rename_i chosen found
      obtain ⟨number, isFound, rfl⟩ := Option.map_eq_some_iff.mp found
      obtain ⟨bound, fits, -⟩ := findIdx?_eq_some_iff_getElem.mp isFound
      refine ⟨number, firsts[number], (Verdict.take.inj decided).symm,
        getElem?_eq_getElem bound, ?_⟩
      simp only [Bool.or_eq_true, Bool.and_eq_true] at fits
      exact fits.imp_right And.left
    · simp at decided
  | full => exact predict_opens decided

/-- A loop or optional form is entered only if it may begin with the current token, or may be
passed. -/
theorem decideEntry_opens {greedy : Bool} {inside outside : First}
    (decided : decideEntry lookahead greedy point calls inside outside p = .ok true) :
    inside.admits p.current.kind = true ∨ inside.passable = true := by
  cases lookahead with
  | one =>
    have entered := Except.ok.inj decided
    simp only [chooseByToken, Option.isSome_map, findIdx?_isSome, any_cons, any_nil,
      Bool.or_false, Bool.or_eq_true, Bool.and_eq_true] at entered
    exact entered.imp_right And.left
  | full =>
    simp only [decideEntry] at decided
    split at decided
    · rename_i alternative predicted
      obtain ⟨number, first, rfl, isFirst, opens⟩ := predict_opens predicted
      have chosen := Except.ok.inj decided
      match number, greedy, isFirst with
      | 0, true, isFirst | 1, false, isFirst =>
        cases Option.some.inj isFirst
        exact opens
      | 0, false, _ | 1, true, _ => simp at chosen
      | _ + 2, true, isFirst | _ + 2, false, isFirst => simp at isFirst
    · simp at decided

end GrammarLint.Phrase
