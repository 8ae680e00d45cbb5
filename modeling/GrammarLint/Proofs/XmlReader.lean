import Mathlib
import GrammarLint.Report.Xml

open List

namespace GrammarLint.Xml

open Text (CodePoint Loose)

/-- What a document is read as. -/
inductive Node where
  | text (s : Loose)
  | element (tag : Loose) (attributes : List (Loose × Loose)) (content : List Node)

def references : List (Loose × Char) :=
  [("amp", '&'), ("lt", '<'), ("gt", '>'), ("quot", '"'), ("#13", '\r'), ("#10", '\n'), ("#09", '\t')]

/-- Puts characters in place of references. `pending` is the name of one that has begun, in
reverse. -/
def resolve : (pending : Option (List CodePoint)) → List CodePoint → Option (List CodePoint)
  | none, [] => some []
  | some _, [] => none
  | none, point :: rest =>
    if point = .char '&' then resolve (some []) rest else (resolve none rest).map (point :: ·)
  | some name, point :: rest =>
    if point = .char ';' then
      (references.lookup ⟨name.reverse⟩).bind fun c => (resolve none rest).map (.char c :: ·)
    else resolve (some (point :: name)) rest

def isBlank (point : CodePoint) : Bool := [CodePoint.char ' ', '\t', '\n', '\r'].contains point

def isMark (point : CodePoint) : Bool := [CodePoint.char '<', '>', '/', '=', '"', '&'].contains point

def isNamePoint (point : CodePoint) : Bool := !isBlank point && !isMark point

/-- Attributes with values in double quotes, and what is behind them. Each takes some text, so the
length of the text is fuel enough. -/
def readAttributes : (fuel : Nat) → List CodePoint → Option (List (Loose × Loose) × List CodePoint)
  | 0, _ => none
  | fuel + 1, cs =>
    let cs := cs.dropWhile isBlank
    match cs.takeWhile isNamePoint, cs.dropWhile isNamePoint with
    | [], rest => some ([], rest)
    | name, .char '=' :: .char '"' :: rest =>
      let raw := rest.takeWhile (· != .char '"')
      match rest.dropWhile (· != .char '"') with
      | _ :: behind =>
        if raw.contains (.char '<') then none
        else do
          let value ← resolve none raw
          let (others, behind) ← readAttributes fuel behind
          return ((⟨name⟩, ⟨value⟩) :: others, behind)
      | [] => none
    | _, _ => none

def closing (tag : List CodePoint) : List CodePoint := .char '<' :: .char '/' :: (tag ++ [.char '>'])

mutual
/-- An element at the front of a text, and what is behind it. -/
def readElement : (fuel : Nat) → List CodePoint → Option (Node × List CodePoint)
  | fuel + 1, .char '<' :: cs =>
    let tag := cs.takeWhile isNamePoint
    if tag.isEmpty then none
    else do
      let (attributes, rest) ← readAttributes (cs.length + 1) (cs.dropWhile isNamePoint)
      match rest with
      | .char '/' :: .char '>' :: rest => return (.element ⟨tag⟩ attributes [], rest)
      | .char '>' :: rest =>
        let (content, rest) ← readContent fuel rest
        let rest ← (closing tag).isPrefixOf? rest
        return (.element ⟨tag⟩ attributes content, rest)
      | _ => none
  | _, _ => none

/-- Texts and elements up to a closing tag or the end. -/
def readContent : (fuel : Nat) → List CodePoint → Option (List Node × List CodePoint)
  | 0, _ => none
  | _, [] => some ([], [])
  | fuel + 1, .char '<' :: rest =>
    if rest.head? = some (.char '/') then some ([], .char '<' :: rest)
    else do
      let (node, rest) ← readElement fuel (.char '<' :: rest)
      let (nodes, rest) ← readContent fuel rest
      return (node :: nodes, rest)
  | fuel + 1, cs => do
    let text ← resolve none (cs.takeWhile (· != .char '<'))
    let (nodes, rest) ← readContent fuel (cs.dropWhile (· != .char '<'))
    return (.text ⟨text⟩ :: nodes, rest)
end

/-- Reads a text that is one element. Apart from tags, attributes in double quotes and the known
references everything stands for itself. -/
def read (cs : List CodePoint) : Option Node :=
  match readElement cs.length cs with
  | some (node, []) => some node
  | _ => none

section References

/-- A character is read back from what is written for it. -/
def Resolves (escape : Char → List Char) : Prop :=
  ∀ c rest, resolve none ((escape c).map .char ++ rest) = (resolve none rest).map (.char c :: ·)

theorem escapeTextChar_resolves : Resolves escapeTextChar := by
  intro c rest
  unfold escapeTextChar
  split_ifs with amp lt gt
  · rw [eq_of_beq amp]
    rfl
  · rw [eq_of_beq lt]
    rfl
  · rw [eq_of_beq gt]
    rfl
  · exact if_neg fun same => amp (beq_iff_eq.mpr (CodePoint.char.inj same))

theorem escapeAttributeChar_resolves : Resolves escapeAttributeChar := by
  intro c rest
  unfold escapeAttributeChar
  split_ifs with quot return_ newline tab
  · rw [eq_of_beq quot]
    rfl
  · rw [eq_of_beq return_]
    rfl
  · rw [eq_of_beq newline]
    rfl
  · rw [eq_of_beq tab]
    rfl
  · exact escapeTextChar_resolves c rest

variable {escape : Char → List Char}

theorem resolve_escaped (resolves : Resolves escape) (points : List CodePoint) :
    resolve none (points.flatMap (escapePoint escape)) = some points := by
  induction points with
  | nil => rfl
  | cons point points ih =>
    rw [flatMap_cons]
    cases point with
    | char c => rw [escapePoint, resolves, ih, Option.map_some]
    | half place =>
      rw [escapePoint, singleton_append, resolve, if_neg nofun, ih, Option.map_some]

theorem resolve_escapeText (s : Loose) : resolve none (escapeText s) = some s.points :=
  resolve_escaped escapeTextChar_resolves s.points

theorem resolve_escapeAttribute (s : Loose) : resolve none (escapeAttribute s) = some s.points :=
  resolve_escaped escapeAttributeChar_resolves s.points

theorem lt_notMem_escapeTextChar (c : Char) : '<' ∉ escapeTextChar c := by
  unfold escapeTextChar
  split_ifs with amp lt gt
  · decide
  · decide
  · decide
  · simpa using fun same => lt (beq_iff_eq.mpr same.symm)

theorem notMem_escapeAttributeChar (c : Char) :
    '<' ∉ escapeAttributeChar c ∧ '"' ∉ escapeAttributeChar c := by
  unfold escapeAttributeChar
  split_ifs with quot return_ newline tab
  · decide
  · decide
  · decide
  · decide
  · refine ⟨lt_notMem_escapeTextChar c, ?_⟩
    unfold escapeTextChar
    split_ifs
    · decide
    · decide
    · decide
    · simpa using fun same => quot (beq_iff_eq.mpr same.symm)

theorem notMem_escaped {mark : Char} (none : ∀ c, mark ∉ escape c)
    (points : List CodePoint) : .char mark ∉ points.flatMap (escapePoint escape) := by
  rw [mem_flatMap]
  rintro ⟨point, -, here⟩
  cases point with
  | char c =>
    obtain ⟨d, mem, same⟩ := mem_map.mp here
    exact none c (CodePoint.char.inj same ▸ mem)
  | half place => exact nomatch mem_singleton.mp here

theorem notMem_escapeText (s : Loose) : .char '<' ∉ escapeText s :=
  notMem_escaped lt_notMem_escapeTextChar s.points

theorem notMem_escapeAttribute (s : Loose) :
    .char '<' ∉ escapeAttribute s ∧ .char '"' ∉ escapeAttribute s :=
  ⟨notMem_escaped (fun c => (notMem_escapeAttributeChar c).1) s.points,
    notMem_escaped (fun c => (notMem_escapeAttributeChar c).2) s.points⟩

end References

section RoundTrip

variable {rest : List CodePoint} {fuel : Nat}

/-- A part all of `p`, up to where `p` fails. -/
theorem takeWhile_dropWhile (p : CodePoint → Bool) {part : List CodePoint} (all : ∀ c ∈ part, p c = true)
    (stop : ∀ c ∈ rest.head?, p c = false) :
    (part ++ rest).takeWhile p = part ∧ (part ++ rest).dropWhile p = rest := by
  rw [takeWhile_append_of_pos all, dropWhile_append_of_pos all]
  cases rest with
  | nil => simp
  | cons c rest => simp [stop c rfl]

theorem bne_of_notMem {mark : CodePoint} {part : List CodePoint} (notMem : mark ∉ part) :
    ∀ c ∈ part, (c != mark) = true :=
  fun _ mem => bne_iff_ne.mpr fun same => notMem (same ▸ mem)

def isName (s : String) : Bool := !s.toList.isEmpty && s.toList.all fun c => isNamePoint c

variable {name tag : String} {attributes : List (String × Loose)} {children : List Xml} {s : Loose}
  {x : Xml}

theorem isNamePoint_verbatim (isName : isName name = true) :
    ∀ c ∈ verbatim name, isNamePoint c = true := by
  intro c mem
  obtain ⟨d, here, rfl⟩ := mem_map.mp mem
  rw [Xml.isName, Bool.and_eq_true] at isName
  exact all_eq_true.mp isName.2 d here

/-- The first character of a name. -/
theorem verbatim_cons (isName : isName name = true) :
    ∃ first others, verbatim name = first :: others ∧ isBlank first = false ∧ isMark first = false := by
  have all := isNamePoint_verbatim isName
  rw [Xml.isName, Bool.and_eq_true, Bool.not_eq_true', isEmpty_eq_false_iff] at isName
  obtain ⟨first, others, split⟩ := exists_cons_of_ne_nil
    (mt map_eq_nil_iff.mp isName.1 : verbatim name ≠ [])
  have named := all first (split ▸ mem_cons_self)
  rw [isNamePoint, Bool.and_eq_true, Bool.not_eq_true', Bool.not_eq_true'] at named
  exact ⟨first, others, split, named⟩

theorem renderAttribute_append (name : String) (value : Loose) :
    renderAttribute name value ++ rest =
      .char ' ' :: (verbatim name ++ .char '=' :: .char '"' :: (escapeAttribute value ++ .char '"' :: rest)) := by
  simp [renderAttribute, verbatim, toString]

/-- An attribute in front of others. -/
theorem readAttributes_cons (isName : isName name = true) (value : Loose) :
    readAttributes (fuel + 1) (renderAttribute name value ++ rest) =
      (readAttributes fuel rest).map fun others => ((.ofString name, value) :: others.1, others.2) := by
  obtain ⟨first, others, split, notBlank, -⟩ := verbatim_cons isName
  obtain ⟨noTag, noQuote⟩ := notMem_escapeAttribute value
  obtain ⟨named, behindName⟩ := @takeWhile_dropWhile
    (.char '=' :: .char '"' :: (escapeAttribute value ++ .char '"' :: rest)) isNamePoint _
    (isNamePoint_verbatim isName) (by simp; decide)
  obtain ⟨valued, behindValue⟩ := @takeWhile_dropWhile (.char '"' :: rest) (· != .char '"') _
    (bne_of_notMem noQuote) (by simp)
  rw [split] at named behindName
  rw [renderAttribute_append, readAttributes, split]
  simp only [cons_append] at named behindName ⊢
  rw [dropWhile_cons_of_pos (by decide), dropWhile_cons_of_neg (by simp [notBlank])]
  simp only [named, behindName, valued, behindValue]
  rw [if_neg (by simpa using noTag), resolve_escapeAttribute, ← split]
  cases readAttributes fuel rest <;> rfl

/-- What can stand behind the attributes: a mark, with blanks before it or without. -/
def Closes (rest : List CodePoint) : Prop :=
  ∃ mark behind, rest.dropWhile isBlank = mark :: behind ∧ isMark mark = true

theorem readAttributes_nil (closes : Closes rest) :
    readAttributes (fuel + 1) rest = some ([], rest.dropWhile isBlank) := by
  obtain ⟨mark, behind, split, isMark⟩ := closes
  have notName : ¬ isNamePoint mark = true := by simp [isNamePoint, isMark]
  rw [readAttributes]
  simp [split, takeWhile_cons_of_neg notName, dropWhile_cons_of_neg notName]

def renderAttributes (attributes : List (String × Loose)) : List CodePoint :=
  attributes.flatMap fun a => renderAttribute a.1 a.2

theorem renderAttributes_cons (first : String × Loose) (attributes : List (String × Loose)) :
    renderAttributes (first :: attributes) = renderAttribute first.1 first.2 ++ renderAttributes attributes :=
  flatMap_cons

theorem readAttributes_render (named : attributes.all (isName ·.1) = true) (closes : Closes rest)
    (enough : attributes.length < fuel) :
    readAttributes fuel (renderAttributes attributes ++ rest) =
      some (attributes.map fun a => (.ofString a.1, a.2), rest.dropWhile isBlank) := by
  induction attributes generalizing fuel with
  | nil =>
    obtain ⟨fuel, rfl⟩ := Nat.exists_eq_add_of_lt enough
    exact readAttributes_nil closes
  | cons first attributes ih =>
    obtain ⟨fuel, rfl⟩ := Nat.exists_eq_add_of_lt enough
    rw [all_cons, Bool.and_eq_true] at named
    rw [renderAttributes_cons, append_assoc, readAttributes_cons named.1, ih named.2 (by grind)]
    rfl

theorem length_renderAttributes (attributes : List (String × Loose)) :
    attributes.length ≤ (renderAttributes attributes).length := by
  induction attributes with
  | nil => exact Nat.zero_le _
  | cons first attributes ih =>
    rw [renderAttributes_cons, renderAttribute_append]
    simp only [length_cons, length_append]
    omega

mutual
/-- What an element is read as. -/
def node : Xml → Node
  | element tag attributes text children =>
    .element tag (attributes.map fun a => (.ofString a.1, a.2))
      ((if text.isEmpty then [] else [.text text]) ++ nodes children)

def nodes : List Xml → List Node
  | [] => []
  | child :: children => child.node :: nodes children
end

mutual
/-- Tags and attributes have names that can be read. -/
def wellNamed : Xml → Bool
  | element tag attributes _ children => isName tag && attributes.all (isName ·.1) && allWellNamed children

def allWellNamed : List Xml → Bool
  | [] => true
  | child :: children => child.wellNamed && allWellNamed children
end

theorem nodes_eq_map (children : List Xml) : nodes children = children.map node := by
  induction children with
  | nil => rfl
  | cons child children ih => rw [nodes, ih, map_cons]

theorem node_of_no_text (tag : String) (attributes : List (String × Loose)) (children : List Xml) :
    (element tag attributes "" children).node =
      .element tag (attributes.map fun a => (.ofString a.1, a.2)) (children.map node) := by
  rw [node, nodes_eq_map]
  rfl

theorem allWellNamed_iff (children : List Xml) : allWellNamed children = children.all wellNamed := by
  induction children with
  | nil => rfl
  | cons child children ih => rw [allWellNamed, ih, all_cons]

/-- An element without text and children. -/
theorem render_hollow {text : Loose} (hollow : (text.isEmpty && children.isEmpty) = true) :
    (element tag attributes text children).render ++ rest =
      .char '<' :: (verbatim tag ++ (renderAttributes attributes ++ (verbatim " />" ++ rest))) := by
  rw [render, if_pos hollow]
  simp [verbatim, renderAttributes, toString]

/-- An element with a text or children. -/
theorem render_solid {text : Loose} (solid : ¬ (text.isEmpty && children.isEmpty) = true) :
    (element tag attributes text children).render ++ rest =
      .char '<' :: (verbatim tag ++ (renderAttributes attributes ++ .char '>' ::
        (escapeText text ++ (renderAll children ++ (closing (verbatim tag) ++ rest))))) := by
  rw [render, if_neg solid]
  simp [verbatim, renderAttributes, toString, closing]

theorem Closes.head? (closes : Closes rest) (attributes : List (String × Loose)) :
    ∀ c ∈ (renderAttributes attributes ++ rest).head?, isNamePoint c = false := by
  cases attributes with
  | nil =>
    obtain ⟨mark, behind, split, isMark⟩ := closes
    intro c here
    by_cases blank : isBlank c = true
    · simp [isNamePoint, blank]
    · obtain ⟨tail, rfl⟩ := head?_eq_some_iff.mp here
      rw [dropWhile_cons_of_neg blank] at split
      cases split
      simp [isNamePoint, isMark]
  | cons first attributes =>
    rw [renderAttributes_cons, renderAttribute_append]
    rintro c ⟨⟩
    decide

/-- The first tag of an element, up to its end. -/
theorem opening_split (isName : isName tag = true) (named : attributes.all (Xml.isName ·.1) = true)
    (closes : Closes rest) :
    let text := verbatim tag ++ (renderAttributes attributes ++ rest)
    text.takeWhile isNamePoint = verbatim tag ∧
      readAttributes (text.length + 1) (text.dropWhile isNamePoint) =
        some (attributes.map fun a => (.ofString a.1, a.2), rest.dropWhile isBlank) := by
  obtain ⟨taken, dropped⟩ := takeWhile_dropWhile isNamePoint (isNamePoint_verbatim isName) (closes.head? attributes)
  refine ⟨taken, ?_⟩
  have enough := length_renderAttributes attributes
  rw [dropped, readAttributes_render named closes (by simp only [length_append]; omega)]

theorem isEmpty_verbatim (isName : isName name = true) : ¬ (verbatim name).isEmpty = true := by
  obtain ⟨first, others, split, -⟩ := verbatim_cons isName
  simp [split]

theorem readElement_hollow (isName : isName tag = true)
    (named : attributes.all (Xml.isName ·.1) = true) :
    readElement (fuel + 1) (.char '<' :: (verbatim tag ++ (renderAttributes attributes ++ (verbatim " />" ++ rest)))) =
      some (.element tag (attributes.map fun a => (.ofString a.1, a.2)) [], rest) := by
  obtain ⟨taken, read⟩ := opening_split isName named
    (⟨.char '/', .char '>' :: rest, rfl, rfl⟩ : Closes (verbatim " />" ++ rest))
  rw [readElement]
  simp only [taken, read, if_neg (isEmpty_verbatim isName)]
  rfl

theorem readElement_solid {inner : List CodePoint} {content : List Node}
    (isName : isName tag = true) (named : attributes.all (Xml.isName ·.1) = true)
    (reads : readContent fuel inner = some (content, closing (verbatim tag) ++ rest)) :
    readElement (fuel + 1) (.char '<' :: (verbatim tag ++ (renderAttributes attributes ++ .char '>' :: inner))) =
      some (.element tag (attributes.map fun a => (.ofString a.1, a.2)) content, rest) := by
  obtain ⟨taken, read⟩ := opening_split isName named (⟨.char '>', inner, rfl, rfl⟩ : Closes (.char '>' :: inner))
  have closed := isPrefixOf?_eq_some_iff_append_eq.mpr (Eq.refl (closing (verbatim tag) ++ rest))
  rw [readElement]
  simp only [taken, read, if_neg (isEmpty_verbatim isName)]
  change (readContent fuel inner).bind _ = _
  rw [reads]
  change ((closing (verbatim tag)).isPrefixOf? (closing (verbatim tag) ++ rest)).bind _ = _
  rw [closed]
  rfl

theorem escapeText_cons (notEmpty : ¬ s.isEmpty = true) :
    ∃ first others, escapeText s = first :: others ∧ first ≠ .char '<' := by
  cases escaped : escapeText s with
  | nil =>
    have resolved := resolve_escapeText s
    rw [escaped] at resolved
    simp [Loose.isEmpty, ← Option.some.inj resolved] at notEmpty
  | cons first others =>
    refine ⟨first, others, rfl, fun same => notMem_escapeText s ?_⟩
    rw [escaped, same]
    exact mem_cons_self

theorem escapeText_of_isEmpty (isEmpty : s.isEmpty = true) : escapeText s = [] := by
  rw [escapeText, isEmpty_iff.mp isEmpty, flatMap_nil]

/-- The text of an element, up to its children or its end. -/
theorem readContent_text (notEmpty : ¬ s.isEmpty = true) (stops : ∀ c ∈ rest.head?, c = .char '<') :
    readContent (fuel + 1) (escapeText s ++ rest) =
      (readContent fuel rest).map fun found => (.text s :: found.1, found.2) := by
  obtain ⟨first, others, split, notTag⟩ := escapeText_cons notEmpty
  obtain ⟨taken, dropped⟩ := takeWhile_dropWhile (· != .char '<') (bne_of_notMem (notMem_escapeText s))
    (fun c here => by simp [stops c here])
  rw [readContent, taken, dropped, resolve_escapeText]
  · cases readContent fuel rest <;> rfl
  · simp [split]
  · rintro others' same
    rw [split] at same
    exact notTag (cons.inj same).1

theorem readContent_closing (tag : List CodePoint) :
    readContent (fuel + 1) (closing tag ++ rest) = some ([], closing tag ++ rest) :=
  rfl

/-- An element begins with a tag that closes nothing. -/
theorem render_cons (wellNamed : x.wellNamed = true) :
    ∃ first others, x.render = .char '<' :: first :: others ∧ first ≠ .char '/' := by
  cases x with
  | element tag attributes text children =>
    rw [Xml.wellNamed, Bool.and_eq_true, Bool.and_eq_true] at wellNamed
    obtain ⟨first, others, split, -, notMark⟩ := verbatim_cons wellNamed.1.1
    have noSlash : first ≠ .char '/' := by
      rintro rfl
      exact absurd notMark (by decide)
    rw [← append_nil (render _)]
    by_cases hollow : (text.isEmpty && children.isEmpty) = true
    · exact ⟨first, _, by rw [render_hollow hollow, split]; rfl, noSlash⟩
    · exact ⟨first, _, by rw [render_solid hollow, split]; rfl, noSlash⟩

theorem readContent_cons (wellNamed : x.wellNamed = true) :
    readContent (fuel + 1) (x.render ++ rest) = (readElement fuel (x.render ++ rest)).bind fun found =>
      (readContent fuel found.2).map fun others => (found.1 :: others.1, others.2) := by
  obtain ⟨first, others, split, notSlash⟩ := render_cons wellNamed
  rw [split, cons_append, cons_append, readContent, if_neg (by simpa using notSlash)]
  cases readElement fuel (.char '<' :: first :: (others ++ rest)) with
  | none => rfl
  | some found => cases h : readContent fuel found.2 <;> simp [h]

theorem head?_renderAll (wellNamed : allWellNamed children = true) (tag : List CodePoint) :
    ∀ c ∈ (renderAll children ++ (closing tag ++ rest)).head?, c = .char '<' := by
  cases children with
  | nil => rintro c ⟨⟩; rfl
  | cons child children =>
    rw [allWellNamed, Bool.and_eq_true] at wellNamed
    obtain ⟨first, others, split, -⟩ := render_cons wellNamed.1
    rw [renderAll, split]
    rintro c ⟨⟩
    rfl

mutual
/-- The fuel of a reader is enough when it is the length of the text. -/
theorem readElement_render : ∀ x : Xml, x.wellNamed = true → ∀ rest fuel, (x.render ++ rest).length ≤ fuel →
    readElement fuel (x.render ++ rest) = some (x.node, rest)
  | element tag attributes text children, wellNamed, rest, fuel, enough => by
    rw [Xml.wellNamed, Bool.and_eq_true, Bool.and_eq_true] at wellNamed
    obtain ⟨⟨isName, named⟩, allWellNamed⟩ := wellNamed
    by_cases hollow : (text.isEmpty && children.isEmpty) = true
    · rw [render_hollow hollow] at enough ⊢
      obtain ⟨fuel, rfl⟩ := Nat.exists_eq_succ_of_ne_zero (Nat.ne_zero_of_lt enough)
      rw [Bool.and_eq_true, List.isEmpty_iff] at hollow
      rw [readElement_hollow isName named, node, if_pos hollow.1, hollow.2]
      rfl
    · rw [render_solid hollow] at enough ⊢
      obtain ⟨fuel, rfl⟩ := Nat.exists_eq_succ_of_ne_zero (Nat.ne_zero_of_lt enough)
      have inner : (escapeText text ++ (renderAll children ++ (closing (verbatim tag) ++ rest))).length < fuel := by
        simp only [length_cons, length_append] at enough ⊢
        omega
      rw [node]
      apply readElement_solid isName named
      by_cases isEmpty : text.isEmpty = true
      · rw [escapeText_of_isEmpty isEmpty, nil_append] at inner ⊢
        rw [if_pos isEmpty, readContent_renderAll children allWellNamed _ rest fuel inner]
        rfl
      · obtain ⟨fuel, rfl⟩ := Nat.exists_eq_succ_of_ne_zero (Nat.ne_zero_of_lt inner)
        obtain ⟨first, others, split, -⟩ := escapeText_cons isEmpty
        rw [length_append, split, length_cons] at inner
        rw [readContent_text isEmpty (head?_renderAll allWellNamed _), if_neg isEmpty,
          readContent_renderAll children allWellNamed _ rest fuel (by omega)]
        rfl

theorem readContent_renderAll : ∀ children : List Xml, allWellNamed children = true → ∀ tag rest fuel,
    (renderAll children ++ (closing tag ++ rest)).length < fuel →
    readContent fuel (renderAll children ++ (closing tag ++ rest)) = some (nodes children, closing tag ++ rest)
  | [], _, tag, rest, fuel, enough => by
    obtain ⟨fuel, rfl⟩ := Nat.exists_eq_succ_of_ne_zero (Nat.ne_zero_of_lt enough)
    exact readContent_closing tag
  | child :: children, wellNamed, tag, rest, fuel, enough => by
    rw [allWellNamed, Bool.and_eq_true] at wellNamed
    obtain ⟨fuel, rfl⟩ := Nat.exists_eq_succ_of_ne_zero (Nat.ne_zero_of_lt enough)
    obtain ⟨first, others, split, -⟩ := render_cons wellNamed.1
    have behind : (renderAll children ++ (closing tag ++ rest)).length < fuel := by
      rw [renderAll, append_assoc, length_append, split] at enough
      simp only [length_cons] at enough
      omega
    rw [renderAll, append_assoc] at enough ⊢
    rw [readContent_cons wellNamed.1, readElement_render child wellNamed.1 _ fuel (by omega), nodes]
    change (readContent fuel _).map _ = _
    rw [readContent_renderAll children wellNamed.2 tag rest fuel behind]
    rfl
end

/-- Every element is read back, whatever its attributes and texts hold. -/
theorem read_render (wellNamed : x.wellNamed = true) : read x.render = some x.node := by
  have reads := readElement_render x wellNamed [] x.render.length (by rw [append_nil])
  rw [append_nil] at reads
  rw [read, reads]

end RoundTrip

end GrammarLint.Xml
