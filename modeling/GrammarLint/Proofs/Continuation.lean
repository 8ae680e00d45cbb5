import GrammarLint.Proofs.Derivation

open List

namespace GrammarLint.Phrase

open Lexical (Kind)

/-- The words that complete a phrase of a category from a list of forms on, and then the phrases that
called it, innermost first. Each step undoes one form in front, so this is what the parser, which sees
only forms and calls, can still accept. -/
inductive Accepts : Category → List Form → List Point → List Kind → Prop
  | finished : Accepts cat [] [] []
  | back {point : Point} : Accepts point.category point.following outer word → Accepts cat [] (point :: outer) word
  | empty : Accepts cat rest outer word → Accepts cat (.empty :: rest) outer word
  | token : Accepts cat rest outer word → Accepts cat (.token index kind :: rest) outer (kind :: word)
  | oneOf : kind ∈ kinds → Accepts cat rest outer word →
      Accepts cat (.oneOf index kinds :: rest) outer (kind :: word)
  | call {callee : Category} : Accepts callee [callee.form] (⟨cat, index⟩ :: outer) word →
      Accepts cat (.call index callee :: rest) outer word
  | seq : Accepts cat (f :: g :: rest) outer word → Accepts cat (.seq f g :: rest) outer word
  | left : Accepts cat (f :: rest) outer word → Accepts cat (.alt f g :: rest) outer word
  | right : Accepts cat (g :: rest) outer word → Accepts cat (.alt f g :: rest) outer word
  | choice : Accepts cat (f :: rest) outer word → Accepts cat (.choice index lookahead f :: rest) outer word
  | absent : Accepts cat rest outer word → Accepts cat (.optional index lookahead f :: rest) outer word
  | present : Accepts cat (f :: rest) outer word →
      Accepts cat (.optional index lookahead f :: rest) outer word
  | star : Accepts cat (.rounds back lookahead greedy f :: rest) outer word →
      Accepts cat (.star index back lookahead greedy f :: rest) outer word
  | plus : Accepts cat (f :: .rounds back .one true f :: rest) outer word →
      Accepts cat (.plus index back f :: rest) outer word
  | stop : Accepts cat rest outer word → Accepts cat (.rounds back lookahead greedy f :: rest) outer word
  | round : Accepts cat (f :: .rounds back lookahead greedy f :: rest) outer word →
      Accepts cat (.rounds back lookahead greedy f :: rest) outer word

variable (cat : Category) {calls : List Point} {word : List Kind}

theorem mem_all : cat ∈ Category.all := by
  cases cat <;> decide

/-- No two tokens or calls of a category have the same number. -/
theorem places_nodup : ((cat.form.places []).map (·.1)).Nodup := by
  have checked : ∀ c ∈ Category.all, ((c.form.places []).map (·.1)).Nodup := by decide +kernel
  exact checked cat (mem_all cat)

/-- The number of a place finds what follows it. -/
theorem find_place {places : List (Nat × Option Category × List Form)}
    (nodup : (places.map (·.1)).Nodup) {place : Nat × Option Category × List Form}
    (mem : place ∈ places) : places.find? (·.1 == place.1) = some place := by
  induction places with
  | nil => simp at mem
  | cons other rest ih =>
    rw [map_cons, nodup_cons] at nodup
    rcases mem_cons.mp mem with rfl | later
    · simp
    · have differ : other.1 ≠ place.1 := fun same =>
        nodup.1 (same ▸ mem_map_of_mem later)
      rw [find?_cons_of_neg (by simpa using differ)]
      exact ih nodup.2 later

variable {cat : Category} {index : Nat} {rest : List Form}

theorem Point.following_eq {callee : Option Category}
    (mem : (index, callee, rest) ∈ cat.form.places []) :
    (⟨cat, index⟩ : Point).following = rest := by
  simp [Point.following, find_place (places_nodup cat) mem]

theorem Located.following_token {kind : Kind} (located : Located cat (.token index kind :: rest)) :
    (⟨cat, index⟩ : Point).following = rest :=
  Point.following_eq (located (mem_append_left _ (mem_singleton_self _)))

theorem Located.following_oneOf {kinds : List Kind}
    (located : Located cat (.oneOf index kinds :: rest)) :
    (⟨cat, index⟩ : Point).following = rest :=
  Point.following_eq (located (mem_append_left _ (mem_singleton_self _)))

theorem Located.following_call {callee : Category}
    (located : Located cat (.call index callee :: rest)) :
    (⟨cat, index⟩ : Point).following = rest :=
  Point.following_eq (located (mem_append_left _ (mem_singleton_self _)))

/-- A word of a form in front of a word of what follows it is a word of both. -/
theorem Derives.accepts {form : Form} {u : List Kind} (derives : Derives form u)
    {v : List Kind} (located : Located cat (form :: rest)) (later : Accepts cat rest calls v) :
    Accepts cat (form :: rest) calls (u ++ v) := by
  induction derives generalizing cat rest calls v with
  | empty => exact .empty later
  | token => exact .token later
  | oneOf mem => exact .oneOf mem later
  | @call _ _ callee _ ih =>
    refine .call (ih (located_form callee) (.back ?_))
    rwa [located.following_call]
  | seq _ _ first second =>
    rw [append_assoc]
    exact .seq (first located.seq (second located.seq.tail later))
  | left _ ih => exact .left (ih located.left later)
  | right _ ih => exact .right (ih located.right later)
  | choice _ ih => exact .choice (ih located.choice later)
  | absent => exact .absent later
  | present _ ih => exact .present (ih located.optional later)
  | star _ ih => exact .star (ih located.star later)
  | plus _ _ first more =>
    rw [append_assoc]
    exact .plus (first located.plus (more located.plus.tail later))
  | stop => exact .stop later
  | round _ _ first more =>
    rw [append_assoc]
    exact .round (first located.rounds (more located later))

theorem Derives.accepts_form (derives : Derives cat.form word) :
    Accepts cat [cat.form] [] word := by
  simpa using derives.accepts (located_form cat) .finished

theorem Accepts.alternative {alternatives : Form}
    (accepts : Accepts cat (alternatives :: rest) calls word) :
    ∃ f ∈ alternatives.alternatives, Accepts cat (f :: rest) calls word := by
  induction alternatives with
  | alt f g first second =>
    simp only [Form.alternatives, mem_append]
    cases accepts with
    | left accepts =>
      obtain ⟨h, mem, later⟩ := first accepts
      exact ⟨h, .inl mem, later⟩
    | right accepts =>
      obtain ⟨h, mem, later⟩ := second accepts
      exact ⟨h, .inr mem, later⟩
  | _ => exact ⟨_, mem_singleton_self _, accepts⟩

end GrammarLint.Phrase
