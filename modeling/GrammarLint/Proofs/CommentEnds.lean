import GrammarLint.Proofs.PieceEnds
import GrammarLint.Proofs.TokenOrigins

open List

namespace GrammarLint.Lexical

open Vocabulary

/-- The mark that ends a comment. -/
def closer : List Char := ['*', '/']

/-- The text of a comment ends behind the first closer that follows the opening, or else with the content. -/
def EndsAtFirst (opening text rest : List Char) : Prop :=
  (∃ body, text = opening ++ (body ++ closer) ∧ ¬closer <:+: body ++ ['*']) ∨
    rest = [] ∧ ∃ body, text = opening ++ body ∧ ¬closer <:+: body

variable {body t u v : List Char} {c : Char} {entry : String × List (String × Bool)}

theorem closer_concat : closer <:+: t ++ [c] ↔ closer <:+: t ∨ c = '/' ∧ ∃ front, t = front ++ ['*'] := by
  have last : closer <:+ t ++ [c] ↔ c = '/' ∧ ∃ front, t = front ++ ['*'] := by
    constructor
    · rintro ⟨front, same⟩
      have apart : front ++ ['*'] ++ ['/'] = t ++ [c] := by simpa [closer] using same
      obtain ⟨front_, last⟩ := append_inj' apart rfl
      exact ⟨(List.cons.inj last).1.symm, front, front_.symm⟩
    · rintro ⟨rfl, front, rfl⟩
      exact ⟨front, by simp [closer]⟩
  rw [infix_concat_iff, last, or_comm]

/-- A text without a closer, or cut behind its first one. -/
theorem closer_cases (t : List Char) : ¬closer <:+: t ∨
    ∃ body w, t = body ++ closer ++ w ∧ ¬closer <:+: body ++ ['*'] := by
  induction t using List.reverseRecOn with
  | nil => exact .inl (by decide)
  | append_singleton t c ih =>
    rcases ih with none | ⟨body, w, rfl, first⟩
    · by_cases last : c = '/' ∧ ∃ front, t = front ++ ['*']
      · obtain ⟨rfl, body, rfl⟩ := last
        exact .inr ⟨body, [], by simp [closer], none⟩
      · exact .inl fun inside => (closer_concat.mp inside).elim none last
    · exact .inr ⟨body, w ++ [c], by simp, first⟩

/-- One character for all those that do not matter in a comment. -/
def standIn (c : Char) : Char := if c ∈ closer then c else 'a'

theorem standIn_spec (c : Char) : standIn c ∈ ['*', '/', 'a'] ∧ ∀ mark ∈ closer, standIn c = mark ↔ c = mark := by
  by_cases mark : c ∈ closer
  · rw [standIn, if_pos mark]
    exact ⟨mem_append_left ['a'] mark, fun _ _ => Iff.rfl⟩
  · rw [standIn, if_neg mark]
    have apart : ∀ mark ∈ closer, 'a' ≠ mark := by decide
    exact ⟨by simp, fun d isMark => iff_of_false (apart d isMark) fun same => mark (same ▸ isMark)⟩

/-- The rules wait for a star, a slash or anything. -/
def awaitsMarks (u : List Char) : Bool :=
  awaitsOnly .default u ([(true, []), (false, ['*']), (false, ['/'])].map fun group => .ofChars group.1 group.2)

theorem alike_standIn (alike : Alike .default u v) (awaits : awaitsMarks v = true) (c : Char) :
    Alike .default (u ++ [c]) (v ++ [standIn c]) := by
  refine alike.concat awaits ?_
  by_cases mark : c ∈ closer
  · simp [standIn, if_pos mark]
  · rw [standIn, if_neg mark]
    exact contains_outside _ (by decide) mark (by decide)

/-- The openings of a comment, each with one text for each way in which the rules can stand before the closer, and
whether a slash would complete it. -/
def comments : List (String × List (String × Bool)) := [
  ("/**", [("/**", false), ("/**a", false), ("/***", true), ("/**/", false), ("/**/a", false), ("/**/*", true)]),
  ("/*", [("/*", false), ("/*a", false), ("/*a*", true)])]

def asksForEnd (u : List Char) : Bool := (rules .default).any fun r => (Racer.after r u).endsHere

def isClosed (u : List Char) : Bool := ((rules .default).find? fun r => (Racer.after r u).isDone).isSome &&
  !asksForEnd u && awaitsOnly .default u []

theorem comments_hold : ∀ entry ∈ comments, ∀ state ∈ entry.2, awaitsMarks state.1.toList = true ∧
    asksForEnd state.1.toList = true ∧ (state.2 = true → isClosed (state.1.toList ++ ['/']) = true) := by
  decide +kernel

/-- A further character leads to another of the texts, unless it closes the comment or is a star behind `/*`. -/
theorem comments_closed : ∀ entry ∈ comments, ∀ state ∈ entry.2, ∀ d ∈ ['*', '/', 'a'],
    (state.1, d) ≠ ("/*", '*') → (state.2, d) ≠ (true, '/') → ∃ next ∈ entry.2,
      next.1 ≠ "/*" ∧ next.2 = (d == '*') ∧ Alike .default (state.1.toList ++ [d]) next.1.toList := by
  unfold Alike
  decide +kernel

/-- Before there is a closer, the last character tells whether there may be one next. -/
theorem comment_inside (mem : entry ∈ comments) (alone : entry.1 = "/*" → t.head? ≠ some '*')
    (none : ¬closer <:+: t) : ∃ state ∈ entry.2, Alike .default (entry.1.toList ++ t) state.1.toList ∧
      (state.1 = "/*" → entry.1 = "/*" ∧ t = []) ∧ (state.2 = true ↔ t.getLast? = some '*') := by
  have start : ∀ entry ∈ comments, (entry.1, false) ∈ entry.2 := by decide
  induction t using List.reverseRecOn with
  | nil => exact ⟨_, start entry mem, by rw [append_nil]; exact fun _ _ => rfl, fun same => ⟨same, rfl⟩, by simp⟩
  | append_singleton t c ih =>
    rw [closer_concat, not_or] at none
    have before : entry.1 = "/*" → t.head? ≠ some '*' := by
      cases t with
      | nil => simp
      | cons d t => exact alone
    obtain ⟨state, known, alike, first, star⟩ := ih before none.1
    obtain ⟨plain, marks⟩ := standIn_spec c
    have doubles : (state.1, standIn c) ≠ ("/*", '*') := by
      rw [Ne, Prod.mk.injEq, marks '*' (by decide)]
      rintro ⟨fresh, rfl⟩
      obtain ⟨short, rfl⟩ := first fresh
      exact alone short rfl
    have closes : (state.2, standIn c) ≠ (true, '/') := by
      rw [Ne, Prod.mk.injEq, marks '/' (by decide), star]
      exact fun both => none.2 ⟨both.2, getLast?_eq_some_iff.mp both.1⟩
    obtain ⟨next, inside, notFirst, last, leads⟩ := comments_closed entry mem state known _ plain doubles closes
    rw [← append_assoc]
    refine ⟨next, inside, (alike_standIn alike (comments_hold entry mem state known).1 c).trans leads,
      fun same => absurd same notFirst, ?_⟩
    rw [last, beq_iff_eq, marks '*' (by decide), getLast?_concat, Option.some.injEq]

theorem nextPiece_asks (asks : asksForEnd v = true) (alike : Alike .default u v) :
    ∃ effect, nextPiece .default u = .found effect u [] := by
  obtain ⟨r, known, ends⟩ := any_eq_true.mp asks
  have some_ : ((rules .default).find? fun r => (Racer.after r u).endsHere).isSome = true := by
    rw [find?_isSome]
    exact ⟨r, known, by rwa [Racer.endsHere, alike r known]⟩
  obtain ⟨rule, first⟩ := Option.isSome_iff_exists.mp some_
  exact ⟨_, nextPiece_ending first⟩

theorem nextPiece_comment (mem : entry ∈ comments) (alone : entry.1 = "/*" → t.head? ≠ some '*') :
    ∃ effect piece rest, nextPiece .default (entry.1.toList ++ t) = .found effect piece rest ∧
      EndsAtFirst entry.1.toList piece rest := by
  have holds := comments_hold entry mem
  rcases closer_cases t with none | ⟨body, w, rfl, first⟩
  · obtain ⟨state, known, alike, -, -⟩ := comment_inside mem alone none
    obtain ⟨effect, read⟩ := nextPiece_asks (holds state known).2.1 alike
    exact ⟨effect, _, [], read, .inr ⟨rfl, t, rfl, none⟩⟩
  · obtain ⟨state, known, alike, -, star⟩ := comment_inside mem (by cases body <;> simpa [closer] using alone) first
    obtain ⟨awaits, -, closes⟩ := holds state known
    have closed := closes (star.mpr getLast?_concat)
    simp only [isClosed, asksForEnd, Bool.and_eq_true, Bool.not_eq_true', any_eq_false, Bool.not_eq_true] at closed
    obtain ⟨⟨found, ends⟩, nothing⟩ := closed
    obtain ⟨rule, found⟩ := Option.isSome_iff_exists.mp found
    have ended : Alike .default (entry.1.toList ++ (body ++ closer)) (state.1.toList ++ ['/']) := by
      simpa [closer] using alike.concat awaits (c := '/') (d := '/') fun _ _ => rfl
    refine ⟨rule.effect, entry.1.toList ++ (body ++ closer), w, ?_, .inl ⟨body, rfl, first⟩⟩
    rw [← append_assoc]
    exact nextPiece_alike (by simp [closer]) ended found ends nothing (by simp)

def commentKinds : List Kind := [.docComment, .blockComment, .lineComment]

/-- How the characters that a comment begins with decide where it may end. -/
def openingOf (text : List Char) : List Char := if ['/', '*', '*'] <+: text then ['/', '*', '*'] else ['/', '*']

variable {text left : List Char} {effect : Effect}

theorem comment_piece (found : nextPiece .default (text ++ left) = .found effect text left)
    (opens : ['/', '*'] <+: text) : EndsAtFirst (openingOf text) text left := by
  obtain ⟨later, rfl⟩ := opens
  have ends {entry : String × List (String × Bool)} (mem : entry ∈ comments) {t : List Char}
      (alone : entry.1 = "/*" → t.head? ≠ some '*') (same : ['/', '*'] ++ later ++ left = entry.1.toList ++ t) :
      EndsAtFirst entry.1.toList (['/', '*'] ++ later) left := by
    obtain ⟨_, piece, rest, read, ends⟩ := nextPiece_comment mem alone
    rw [← same, found] at read
    cases read
    exact ends
  by_cases double : (later ++ left).head? = some '*'
  · obtain ⟨t, split⟩ := head?_eq_some_iff.mp double
    have doc := ends (.head _) (t := t) (by simp) (by simp [split])
    have front : ['/', '*', '*'] <+: ['/', '*'] ++ later := by
      rcases doc with ⟨body, same, -⟩ | ⟨-, body, same, -⟩ <;> exact ⟨_, same.symm⟩
    rwa [openingOf, if_pos front]
  · have other : ¬['/', '*', '*'] <+: ['/', '*'] ++ later := by
      rintro ⟨t, same⟩
      obtain rfl : '*' :: t = later := by simpa using same
      exact double rfl
    rw [openingOf, if_neg other]
    exact ends (.tail _ (.head _)) (fun _ => double) (append_assoc ..)

theorem closer_star : closer <:+: '*' :: body ↔ (∃ later, body = '/' :: later) ∨ closer <:+: body := by
  rw [infix_cons_iff, closer, cons_prefix_cons, and_iff_right rfl]
  exact or_congr_left (exists_congr fun _ => eq_comm)

/-- A comment ends at the first closer behind `/*`, unless it begins with `/**/` and goes on. -/
theorem EndsAtFirst.plain_iff (ends : EndsAtFirst (openingOf text) text left) :
    EndsAtFirst ['/', '*'] text left ↔ (['/', '*', '*', '/'] <+: text → text = ['/', '*', '*', '/']) := by
  constructor
  · rintro (⟨body, rfl, first⟩ | ⟨-, body, rfl, none⟩) ⟨later, same⟩
    · match body with
      | [] => rfl
      | [c] => simp [closer] at same
      | c :: d :: body =>
        obtain ⟨rfl, rfl, -⟩ := same
        exact absurd (closer_star.mpr (.inl ⟨_, rfl⟩)) first
    · simp only [cons_append, nil_append, cons.injEq, true_and] at same
      exact absurd ⟨[], later, same⟩ none
  · intro only
    unfold openingOf at ends
    split at ends
    · rcases ends with ⟨body, rfl, first⟩ | ⟨rfl, body, rfl, none⟩
      · refine .inl ⟨'*' :: body, rfl, fun inside => ?_⟩
        rcases closer_star.mp inside with ⟨later, slash⟩ | inside
        · obtain _ | ⟨c, body⟩ := body
          · cases slash
          · cases slash
            simpa [closer] using only ⟨body ++ closer, rfl⟩
        · exact first inside
      · by_cases slash : ∃ later, body = '/' :: later
        · obtain ⟨later, rfl⟩ := slash
          cases only ⟨later, rfl⟩
          exact .inl ⟨[], rfl, by decide⟩
        · exact .inr ⟨rfl, '*' :: body, rfl, fun inside => (closer_star.mp inside).elim slash none⟩
    · exact ends

/-- A comment at a place, with the end that its opening gives it. It is the end that `/*` gives, if the comment is not
one that begins with `/**/` and goes on. -/
def CommentAt (content : List Char) (position : Position) (text : List Char) : Prop :=
  ∃ before rest, content = before ++ (text ++ rest) ∧ position = .behind before ∧
    EndsAtFirst (openingOf text) text rest ∧
    (EndsAtFirst ['/', '*'] text rest ↔ (['/', '*', '*', '/'] <+: text → text = ['/', '*', '*', '/']))

theorem PieceAt.comment {content : List Char} {position : Position} (at_ : PieceAt content position effect text)
    (opens : ['/', '*'] <+: text) : CommentAt content position text := by
  obtain ⟨before, left, whole, starts, found⟩ := at_
  have ends := comment_piece found opens
  exact ⟨before, left, whole, starts, ends, ends.plain_iff⟩

/-- Every comment between marks ends at the first closing one behind its opening. -/
theorem comment_ends {content : List Char} {token : Token} (mem : token ∈ (scan content).tokens)
    (comment : token.kind ∈ commentKinds) (opens : ['/', '*'] <+: token.text.toList) :
    CommentAt content token.position token.text.toList := by
  have others : ∀ kind ∈ commentKinds, kind ∉ [Kind.argumentContent, .endArgument] := by decide
  have origin := scan_origin content token mem
  generalize token.text.toList = text at *
  generalize token.kind = kind at *
  cases origin with
  | piece at_ _ | name at_ => exact at_.comment opens
  | opening => exact absurd opens (by decide)
  | argument inside => exact absurd inside (others _ comment)
  | charSet _ head =>
    obtain ⟨later, rfl⟩ := opens
    cases head

/-- A comment that could have ended at once but goes on to the next closing mark. -/
theorem comment_ends_banner : CommentAt "/**/a*/b".toList .start "/**/a*/".toList :=
  @comment_ends _ ⟨.docComment, "/**/a*/", .start, .comment⟩ (by decide +kernel) (by decide) (by decide)

/-- Such a comment runs to the end of the text if there is no other closing mark. -/
theorem comment_overruns : (scan "/**/a".toList).tokens = [⟨.docComment, "/**/a", .start, .comment⟩] ∧
    ¬EndsAtFirst ['/', '*'] "/**/a".toList [] := by
  have ends : EndsAtFirst (openingOf "/**/a".toList) "/**/a".toList [] := .inr ⟨rfl, ['/', 'a'], rfl, by decide⟩
  exact ⟨by decide +kernel, fun plain => absurd (ends.plain_iff.mp plain (by decide)) (by decide)⟩

end GrammarLint.Lexical
