import RowFilter.Proofs.Catalog.Loading
import RowFilter.Proofs.Json.Lexemes

/-! The documents of a list of declarations. A document may write a character in any way,
order the fields of a record as it likes, add fields that nobody asks for, write a record as
the list of its fields, leave out the sub-elements of a scalar or write `null` for them, and
put blanks between any two signs. Loading such a document is the same as declaring its
scalars and arrays one by one, from an empty catalog on. -/

namespace RowFilter.Catalog

open Json File

namespace File

/-- Fields under other keys hold any values. -/
def Unasked (keys : List String) (fields : List (String × List Char)) : Prop :=
  ∀ field ∈ fields, field.1 ∉ keys → ValueText field.2

/-! ### The shape of a document -/

structure SubvariableFields (sub : Subvariable) (fields : List (String × List Char)) : Prop where
  name : Says "alias" TextOf none fields sub.name
  address : Says "address" TextOf none fields sub.address
  others : Unasked ["alias", "address"] fields

def SubvariableItems (sub : Subvariable) (parts : List (List Char)) : Prop :=
  List.Forall₂ TextOf [sub.name, sub.address] parts

def SubvariableText : Subvariable → List Char → Prop :=
  RecordOf SubvariableItems SubvariableFields

/-- The sub-elements of an array, or `null` for those of a scalar. -/
def ElementsText : Option (List Subvariable) → List Char → Prop := NullOr (ListOf SubvariableText)

structure DeclarationFields (d : Declaration) (fields : List (String × List Char)) : Prop where
  name : Says "alias" TextOf none fields d.name
  address : Says "address" TextOf none fields d.address
  subvariables : Says "subvariables" ElementsText (some none) fields d.subvariables
  others : Unasked ["alias", "address", "subvariables"] fields

inductive DeclarationItems (d : Declaration) : List (List Char) → Prop
  | mk {named last : List (List Char)} : List.Forall₂ TextOf [d.name, d.address] named →
    LastItem ElementsText none d.subvariables last → DeclarationItems d (named ++ last)

def DeclarationText : Declaration → List Char → Prop := RecordOf DeclarationItems DeclarationFields

structure CatalogFields (ds : List Declaration) (fields : List (String × List Char)) : Prop where
  declared : Says "variables" (ListOf DeclarationText) (some []) fields ds
  others : Unasked ["variables"] fields

def CatalogText : List Declaration → List Char → Prop :=
  RecordOf (LastItem (ListOf DeclarationText) []) CatalogFields

/-- The document is JSON for the declarations. -/
def DocumentText (ds : List Declaration) (document : String) : Prop :=
  ∃ g w h, Gap g ∧ Gap h ∧ CatalogText ds w ∧ document.toList = g ++ (w ++ h)

theorem exists_listOf {α : Type} {T : α → List Char → Prop} (hT : ∀ a, ∃ w, T a w)
    (as : List α) : ∃ w, ListOf T as w := by
  have hparts : ∃ parts, List.Forall₂ T as parts := by
    induction as with
    | nil => exact ⟨_, .nil⟩
    | cons a as ih =>
      obtain ⟨part, hpart⟩ := hT a
      obtain ⟨parts, hparts⟩ := ih
      exact ⟨_, .cons hpart hparts⟩
  obtain ⟨parts, hparts⟩ := hparts
  obtain ⟨w, hw⟩ := exists_listText parts
  exact ⟨w, parts, hparts, hw⟩

theorem exists_namedTexts (name address : String) :
    ∃ parts, List.Forall₂ TextOf [name, address] parts :=
  ⟨_, .cons (textOf_quoted name) (.cons (textOf_quoted address) .nil)⟩

theorem exists_subvariableText (sub : Subvariable) : ∃ w, SubvariableText sub w := by
  obtain ⟨named, hnamed⟩ := exists_namedTexts sub.name sub.address
  obtain ⟨w, hw⟩ := exists_listText named
  exact ⟨w, .items hnamed hw⟩

theorem exists_declarationText (d : Declaration) : ∃ w, DeclarationText d w := by
  obtain ⟨named, hnamed⟩ := exists_namedTexts d.name d.address
  have helements : ∃ elements, ElementsText d.subvariables elements := by
    cases d.subvariables with
    | none => exact ⟨_, .null⟩
    | some subs =>
      obtain ⟨elements, helements⟩ := exists_listOf exists_subvariableText subs
      exact ⟨elements, .some helements⟩
  obtain ⟨elements, helements⟩ := helements
  obtain ⟨w, hw⟩ := exists_listText (named ++ [elements])
  exact ⟨w, .items (.mk hnamed (.given helements)) hw⟩

/-- Whatever is declared, some document says it. -/
theorem exists_documentText (ds : List Declaration) : ∃ document, DocumentText ds document := by
  obtain ⟨declared, hdeclared⟩ := exists_listOf exists_declarationText ds
  obtain ⟨w, hw⟩ := exists_listText [declared]
  refine ⟨String.ofList w, [], w, [], gap_nil, gap_nil, .items (.given hdeclared) hw, ?_⟩
  rw [String.toList_ofList, List.append_nil]
  rfl

/-! ### Reading it -/

variable {w rest value : List Char} {key : String} {fields : List (String × List Char)}

/-- What the name and the address of a record have come to. -/
structure Named (name address : String) (seen : Seen) (fields : List (String × List Char)) :
    Prop where
  name : Kept "alias" TextOf none seen.name fields name
  address : Kept "address" TextOf none seen.address fields address

theorem Named.step {name address : String} {seen : Seen}
    (hseen : Named name address seen ((key, value) :: fields))
    (hother : key ∉ ["alias", "address"] → ValueText value) :
    ∃ next, ReadsField (subvariableField seen key) value next ∧
      Named name address next fields ∧ next.subvariables = seen.subvariables := by
  obtain ⟨hname, haddress⟩ := hseen
  by_cases hkey : key = "alias"
  · subst hkey
    obtain ⟨hnone, htext, hname⟩ := hname.of_key
    refine ⟨{ seen with name := some name }, ?_, ⟨hname, haddress.of_other (by decide)⟩, rfl⟩
    rw [subvariableField, if_pos rfl, hnone]
    exact (readsField_fill complete_text htext "alias").bind_pure fun found =>
      { seen with name := found }
  · by_cases hkey' : key = "address"
    · subst hkey'
      obtain ⟨hnone, htext, haddress⟩ := haddress.of_key
      refine ⟨{ seen with address := some address }, ?_, ⟨hname.of_other hkey, haddress⟩, rfl⟩
      rw [subvariableField, if_neg hkey, if_pos rfl, hnone]
      exact (readsField_fill complete_text htext "address").bind_pure fun found =>
        { seen with address := found }
    · refine ⟨seen, ?_, ⟨hname.of_other hkey, haddress.of_other hkey'⟩, rfl⟩
      rw [subvariableField, if_neg hkey, if_neg hkey']
      exact (readsField_skipField (hother (by simp [hkey, hkey']))).bind_pure fun _ => seen

theorem Named.last {name address : String} {seen : Seen} (hseen : Named name address seen []) :
    seen.name = some name ∧ seen.address = some address := by
  have hname := hseen.name.last
  have haddress := hseen.address.last
  rw [Option.or_none] at hname haddress
  exact ⟨hname, haddress⟩

/-- The two records that have a name and an address read them alike. -/
theorem named_items {α : Type} {name address : String} {named last : List (List Char)}
    (hnamed : List.Forall₂ TextOf [name, address] named) (hw : Upto ']' true (named ++ last) w)
    (rest : List Char) (kind : RecordKind) (next : String → String → Load α) :
    ∃ more, Upto ']' false last more ∧
      (dueItem kind 0 text >>= fun name => dueItem kind 1 text >>= fun address =>
        next name address) (w ++ rest) = next name address (more ++ rest) := by
  obtain _ | ⟨hname, haddress⟩ := hnamed
  obtain _ | ⟨haddress, hnil⟩ := haddress
  cases hnil
  obtain ⟨more, hmore, hread⟩ := dueItem_part kind 0 complete_text hname hw rest
  obtain ⟨more, hmore, hread'⟩ := dueItem_part kind 1 complete_text haddress hmore rest
  refine ⟨more, hmore, ?_⟩
  rw [bind_of_ok hread, bind_of_ok hread']

/-- What a sub-element has come to. -/
structure Entered (sub : Subvariable) (seen : Seen) (fields : List (String × List Char)) :
    Prop where
  named : Named sub.name sub.address seen fields
  others : Unasked ["alias", "address"] fields

theorem keeps_entered (sub : Subvariable) : Keeps subvariableField (Entered sub) := by
  intro seen key value fields hseen
  obtain ⟨hnamed, hothers⟩ := hseen
  obtain ⟨hvalue, hmore⟩ := List.forall_mem_cons.1 hothers
  obtain ⟨next, hread, hnamed, -⟩ := hnamed.step hvalue
  exact ⟨next, hread, hnamed, hmore⟩

theorem complete_subvariable : Complete SubvariableText subvariable := by
  refine complete_record .ofSubvariable (fun {sub parts w} rest hitems hw => ?_)
    (fun {sub fields parts w} rest hfields hparts hw => ?_)
  · rw [← List.append_nil parts] at hw
    obtain ⟨more, hmore, hread⟩ := named_items hitems hw rest .ofSubvariable fun name address =>
      pure (⟨name, address⟩ : Subvariable)
    cases hmore with
    | @close _ g hg =>
      refine ⟨g, hg, hread.trans ?_⟩
      rw [List.append_assoc]
      rfl
  · obtain ⟨last, hlast, g, hg, hread⟩ := fields_parts (keeps_entered sub) hparts hw rest .nothing
      ⟨⟨.inr ⟨rfl, hfields.name⟩, .inr ⟨rfl, hfields.address⟩⟩, hfields.others⟩
    obtain ⟨hname, haddress⟩ := hlast.named.last
    refine ⟨g, hg, ?_⟩
    rw [bind_of_ok hread, hname, haddress]
    rfl

theorem complete_elements : Complete ElementsText (nullable (list subvariable)) := by
  refine complete_nullable (complete_list complete_subvariable) fun {subs w more} hw => ?_
  obtain ⟨parts, -, ⟨-⟩⟩ := hw
  exact nofun

/-- What a variable has come to. -/
structure Declared (d : Declaration) (seen : Seen) (fields : List (String × List Char)) :
    Prop where
  named : Named d.name d.address seen fields
  subvariables :
    Kept "subvariables" ElementsText (some none) seen.subvariables fields d.subvariables
  others : Unasked ["alias", "address", "subvariables"] fields

theorem keeps_declared (d : Declaration) : Keeps variableField (Declared d) := by
  intro seen key value fields hseen
  obtain ⟨hnamed, hsubs, hothers⟩ := hseen
  obtain ⟨hvalue, hmore⟩ := List.forall_mem_cons.1 hothers
  by_cases hkey : key = "subvariables"
  · subst hkey
    obtain ⟨hnone, helements, hsubs⟩ := hsubs.of_key
    refine ⟨{ seen with subvariables := some d.subvariables }, ?_, ⟨?_, ?_⟩, hsubs, hmore⟩
    · rw [variableField, if_pos rfl, hnone]
      exact (readsField_fill complete_elements helements "subvariables").bind_pure fun found =>
        { seen with subvariables := found }
    · exact hnamed.name.of_other (by decide)
    · exact hnamed.address.of_other (by decide)
  · obtain ⟨next, hread, hnamed, hkept⟩ := hnamed.step fun hother => hvalue (by
      simp only [List.mem_cons, List.not_mem_nil, or_false, not_or] at hother ⊢
      exact ⟨hother.1, hother.2, hkey⟩)
    refine ⟨next, ?_, hnamed, ?_, hmore⟩
    · rw [variableField, if_neg hkey]
      exact hread
    · rw [hkept]
      exact hsubs.of_other hkey

theorem complete_declaration : Complete DeclarationText declaration := by
  refine complete_record .ofVariable (fun {d parts w} rest hitems hw => ?_)
    (fun {d fields parts w} rest hfields hparts hw => ?_)
  · obtain @⟨named, last, hnamed, hlast⟩ := hitems
    obtain ⟨more, hmore, hread⟩ := named_items hnamed hw rest .ofVariable fun name address => do
      let subvariables ← nextItem false (nullable (list subvariable))
      pure (⟨name, address, subvariables.join⟩ : Declaration)
    obtain ⟨found, hfound, g, hg, hnext⟩ := nextItem_last complete_elements hlast hmore rest
    have hjoin : found.join = d.subvariables := by
      rw [← hfound]
      cases found <;> rfl
    refine ⟨g, hg, hread.trans ?_⟩
    rw [bind_of_ok hnext, hjoin]
    rfl
  · obtain ⟨last, hlast, g, hg, hread⟩ := fields_parts (keeps_declared d) hparts hw rest .nothing
      ⟨⟨.inr ⟨rfl, hfields.name⟩, .inr ⟨rfl, hfields.address⟩⟩,
        .inr ⟨rfl, hfields.subvariables⟩, hfields.others⟩
    obtain ⟨hname, haddress⟩ := hlast.named.last
    have hjoin : last.subvariables.join = d.subvariables := by
      have hsubs := hlast.subvariables.last
      cases hseen : last.subvariables with
      | none => simpa [hseen] using hsubs
      | some subs => simpa [hseen] using hsubs
    refine ⟨g, hg, ?_⟩
    rw [bind_of_ok hread, hname, haddress]
    change Except.ok ((⟨d.name, d.address, last.subvariables.join⟩ : Declaration), _) = _
    rw [hjoin]

/-- What the variables of a catalog have come to. -/
structure Gathered (ds : List Declaration) (seen : Option (List Declaration))
    (fields : List (String × List Char)) : Prop where
  declared : Kept "variables" (ListOf DeclarationText) (some []) seen fields ds
  others : Unasked ["variables"] fields

theorem keeps_gathered (ds : List Declaration) : Keeps catalogField (Gathered ds) := by
  intro seen key value fields hseen
  obtain ⟨hdeclared, hothers⟩ := hseen
  obtain ⟨hvalue, hmore⟩ := List.forall_mem_cons.1 hothers
  by_cases hkey : key = "variables"
  · subst hkey
    obtain ⟨hnone, hds, hdeclared⟩ := hdeclared.of_key
    refine ⟨some ds, ?_, hdeclared, hmore⟩
    rw [catalogField, if_pos rfl, hnone]
    exact readsField_fill (complete_list complete_declaration) hds "variables"
  · refine ⟨seen, ?_, hdeclared.of_other hkey, hmore⟩
    rw [catalogField, if_neg hkey]
    exact (readsField_skipField (hvalue (by simpa using hkey))).bind_pure fun _ => seen

theorem complete_declarations : Complete CatalogText declarations := by
  refine complete_record .ofCatalog (fun {ds parts w} rest hitems hw => ?_)
    (fun {ds fields parts w} rest hfields hparts hw => ?_)
  · obtain ⟨found, hfound, g, hg, hread⟩ :=
      nextItem_last (complete_list complete_declaration) hitems hw rest
    refine ⟨g, hg, ?_⟩
    rw [bind_of_ok hread, hfound]
    rfl
  · obtain ⟨last, hlast, g, hg, hread⟩ := fields_parts (keeps_gathered ds) hparts hw rest none
      ⟨.inr ⟨rfl, hfields.declared⟩, hfields.others⟩
    have hgathered : last.getD [] = ds := by
      have hdeclared := hlast.declared.last
      cases last <;> simpa using hdeclared
    refine ⟨g, hg, ?_⟩
    rw [bind_of_ok hread, hgathered]
    rfl

theorem read_documentText {ds : List Declaration} {document : String}
    (hdocument : DocumentText ds document) : read document = .ok ds := by
  obtain ⟨g, w, h, hg, hh, hw, hchars⟩ := hdocument
  have hend : skipGap h = [] := by
    rw [← List.append_nil h, skipGap_append hh]
    rfl
  have hdelimited : Delimited h := by
    rw [← List.append_nil h]
    exact delimited_append hh nofun
  rw [read, hchars, complete_declarations.read hw hg hdelimited]
  simp only [hend]

end File

/-- One scalar or array more in a catalog in the making; what it warns of comes behind the
warnings so far. -/
def withDeclaration : Catalog × List Warning → Declaration → Catalog × List Warning
  | (c, warnings), ⟨name, address, none⟩ =>
    let (c, more) := c.withScalar name address
    (c, warnings ++ more)
  | (c, warnings), ⟨name, address, some subvariables⟩ =>
    let (c, more) := c.withArray name address subvariables
    (c, warnings ++ more)

theorem withDeclaration_eq (c : Catalog) (warnings : List Warning) (d : Declaration) :
    withDeclaration (c, warnings) d = ((c.declare d).1, warnings ++ (c.declare d).2) := by
  obtain ⟨name, address, subvariables⟩ := d
  cases subvariables <;> rfl

/-- A run over declarations makes what they make one by one, and warns of the same. -/
theorem foldl_withDeclaration (c : Catalog) (warnings : List Warning) (ds : List Declaration) :
    ds.foldl withDeclaration (c, warnings) =
      ((c.declareAll ds).1, warnings ++ (c.declareAll ds).2) := by
  induction ds generalizing c warnings with
  | nil => rw [List.foldl_nil, declareAll, List.append_nil]
  | cons d ds ih => rw [List.foldl_cons, withDeclaration_eq, ih, declareAll, List.append_assoc]

/-- Every document of the declarations makes the catalog that they make one by one, with the
same warnings. -/
theorem ofDocument_of_documentText {ds : List Declaration} {document : String}
    (hdocument : DocumentText ds document) :
    ofDocument document = .ok (ds.foldl withDeclaration (empty, [])) := by
  rw [ofDocument, read_documentText hdocument, foldl_withDeclaration]
  rfl

/-- An unknown field comes first, the scalar is a list with escapes in its address, and the
array has its fields in another order and takes over the name of the scalar. -/
theorem ofDocument_of_documentText_mixed :
    ∃ document, document = "\x7b\"no\":[-7.5e3, null],\"variables\":[[\"q\",\"\\u0061\\/\"]," ++
        "\x7b\"subvariables\":[[\"q\",\"b\"]],\"address\":\"\",\"alias\":\"g\"\x7d]\x7d " ∧
      DocumentText [⟨"q", "a/", none⟩, ⟨"g", "", some [⟨"q", "b"⟩]⟩] document ∧
      ofDocument document = .ok (((empty.withScalar "q" "a/").1.withArray "g" "" [⟨"q", "b"⟩]).1,
        [.subvariableShadows "q" "g"]) := by
  have hgap : Gap [' '] := by simp [Gap]
  have hpair (s t : List Char) : ListText [s, t] _ :=
    .mk (.first gap_nil (.next gap_nil gap_nil (.close false gap_nil)))
  have hraw {s : String} (hs : ∀ c ∈ s.toList, IsRaw c) : TextOf s _ := textOf_raw hs
  have hfield (s : String) (value : List Char) (hs : ∀ c ∈ s.toList, IsRaw c) :
      ∃ key, TextOf s key ∧ FieldText key value _ := ⟨_, hraw hs, .mk gap_nil gap_nil⟩
  have hnumber : ValueText ['-', '7', '.', '5', 'e', '3'] :=
    .negative (.mk (@WholeText.digits '7' [] (by decide) ⟨by simp, by simp⟩)
      (@FractionText.point ['5'] ⟨by simp, by simp⟩)
      (@ExponentText.letter 'e' [] ['3'] (by simp) (by simp) ⟨by simp, by simp⟩))
  have hnull : ValueText ['n', 'u', 'l', 'l'] := @ValueText.word "null" (by simp)
  have hno : ValueText ['[', '-', '7', '.', '5', 'e', '3', ',', ' ', 'n', 'u', 'l', 'l', ']'] :=
    .list (List.forall_mem_cons.2 ⟨hnumber, List.forall_mem_singleton.2 hnull⟩)
      (.mk (.first gap_nil (.next gap_nil hgap (.close false gap_nil))))
  have hunit : UnitText 'a'.toNat ['\\', 'u', '0', '0', '6', '1'] :=
    .mk (.lower (n := 0) (by decide)) (.lower (n := 0) (by decide))
      (.lower (n := 6) (by decide)) (.lower (n := 1) (by decide))
  have hslash : CharText '/' ['\\', '/'] := .short (by simp [shortEscapes])
  have hescaped : TextOf "a/" ['"', '\\', 'u', '0', '0', '6', '1', '\\', '/', '"'] := by
    have hchars : CharsText "a/".toList _ := .cons (.unit hunit) (.cons hslash .nil)
    exact .mk hchars
  have hscalar : DeclarationText ⟨"q", "a/", none⟩ _ :=
    .items (.mk (.cons (hraw (by simp [IsRaw])) (.cons hescaped .nil)) .absent) (hpair _ _)
  have hsub : SubvariableText ⟨"q", "b"⟩ _ :=
    .items (.cons (hraw (by simp [IsRaw])) (.cons (hraw (by simp [IsRaw])) .nil)) (hpair _ _)
  have helements : ElementsText (some [⟨"q", "b"⟩]) _ :=
    .some ⟨_, .cons hsub .nil, .mk (.first gap_nil (.close false gap_nil))⟩
  have hfields (v₁ v₂ v₃ : List Char) :
      RecordText [("subvariables", v₁), ("address", v₂), ("alias", v₃)] _ :=
    .mk (.cons (hfield _ _ (by simp [IsRaw])) (.cons (hfield _ _ (by simp [IsRaw]))
      (.cons (hfield _ _ (by simp [IsRaw])) .nil)))
      (.first gap_nil (.next gap_nil gap_nil (.next gap_nil gap_nil (.close false gap_nil))))
  have harray : DeclarationText ⟨"g", "", some [⟨"q", "b"⟩]⟩ _ :=
    .fields ⟨.given (by rfl) (hraw (by simp [IsRaw])), .given (by rfl) (hraw (by simp [IsRaw])),
      .given (by rfl) helements, by simp [Unasked]⟩ (hfields _ _ _)
  have hrecord (v₁ v₂ : List Char) : RecordText [("no", v₁), ("variables", v₂)] _ :=
    .mk (.cons (hfield _ _ (by simp [IsRaw])) (.cons (hfield _ _ (by simp [IsRaw])) .nil))
      (.first gap_nil (.next gap_nil gap_nil (.close false gap_nil)))
  have hcatalog : CatalogText [⟨"q", "a/", none⟩, ⟨"g", "", some [⟨"q", "b"⟩]⟩] _ :=
    .fields ⟨.given (by rfl) ⟨_, .cons hscalar (.cons harray .nil), hpair _ _⟩,
      List.forall_mem_cons.2 ⟨fun _ => hno, by simp⟩⟩ (hrecord _ _)
  have hdocument : DocumentText [⟨"q", "a/", none⟩, ⟨"g", "", some [⟨"q", "b"⟩]⟩] _ :=
    ⟨[], _, [' '], gap_nil, hgap, hcatalog, String.toList_ofList⟩
  refine ⟨_, ?_, hdocument, ?_⟩
  · rw [← String.toList_inj, String.toList_ofList]
    rfl
  · rw [ofDocument_of_documentText hdocument]
    rfl

end RowFilter.Catalog
