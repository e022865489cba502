import Inlay.Options.Document
import Inlay.Proofs.Enrollment
import Inlay.Proofs.JsonReading

/-!
# Options through a document

Options are read back from the document that is printed for them, and from
each document with the same members in another order and with members of no
meaning between them, in whatever way it is spelled. Of the members with a
meaning none may be there twice.
-/

namespace Inlay

/-! ## Views of printed documents -/

theorem mapM_map_eq_some {α β : Type} (f : β → Option α) (g : α → β) (h : ∀ x, f (g x) = some x)
    (xs : List α) : (xs.map g).mapM f = some xs := by
  induction xs with
  | nil => rfl
  | cons x xs ih =>
      rw [List.map_cons, List.mapM_cons, h, ih]
      rfl

namespace Json

/-- A value of a single token that is no number. -/
inductive Plain : Json → Prop
  | null : Plain .null
  | bool (b : Bool) : Plain (.bool b)
  | text (s : Text) : Plain (.text s)

theorem Plain.spells_print {j : Json} (h : Plain j) : Spells j.print j := by
  cases h with
  | null => exact .null
  | bool b => exact spells_print_bool b
  | text s => exact spells_print_text s

theorem toMembers?_ofMembers (members : List (Text × Json)) :
    (ofMembers members).toMembers? = some members :=
  mapM_map_eq_some (fun member : Option Text × Json => member.1.map fun name => (name, member.2))
    (fun member : Text × Json => (some member.1, member.2)) (fun _ => rfl) members

theorem toTexts?_array (texts : List Text) : (array (texts.map text)).toTexts? = some texts :=
  mapM_map_eq_some toText? text (fun _ => rfl) texts

theorem spells_print_texts (texts : List Text) :
    Spells (array (texts.map text)).print (array (texts.map text)) := by
  refine spells_print_array fun item hitem => ?_
  obtain ⟨s, -, rfl⟩ := List.mem_map.mp hitem
  exact spells_print_text s

end Json

namespace OrderedMap

variable {α : Type}

/-- New names are stored at the end. -/
theorem entries_foldl_insert {entries : List (Text × α)} (m : OrderedMap α)
    (h : (m.keys ++ entries.map Prod.fst).Nodup) :
    (entries.foldl (fun acc entry => acc.insert entry.1 entry.2) m).entries =
      m.entries ++ entries := by
  induction entries generalizing m with
  | nil => exact (List.append_nil _).symm
  | cons entry entries ih =>
      have hnew : entry.1 ∉ m := fun hmem =>
        (List.nodup_append.mp h).2.2 entry.1 hmem entry.1 List.mem_cons_self rfl
      have hinsert : (m.insert entry.1 entry.2).entries = m.entries ++ [entry] := by
        rw [insert, if_neg hnew, entries_insertIfNew_of_not_mem hnew]
      have hkeys : (m.insert entry.1 entry.2).keys = m.keys ++ [entry.1] := by
        rw [keys, hinsert, List.map_append]
        rfl
      rw [List.foldl_cons, ih, hinsert, List.append_assoc, List.singleton_append]
      rwa [hkeys, List.append_assoc, List.singleton_append]

theorem ofList_entries (m : OrderedMap α) : ofList m.entries = m :=
  ext_entries (entries_foldl_insert ∅ m.nodup)

theorem toJson_eq_ofMembers (m : OrderedMap Text) :
    m.toJson = .ofMembers (m.entries.map fun entry => (entry.1, .text entry.2)) := by
  unfold toJson Json.ofMembers
  rw [List.map_map]
  rfl

theorem ofJson?_toJson (m : OrderedMap Text) : ofJson? m.toJson = some m := by
  have hentries := mapM_map_eq_some
    (fun member : Text × Json => member.2.toText?.map fun value => (member.1, value))
    (fun entry : Text × Text => (entry.1, Json.text entry.2)) (fun _ => rfl) m.entries
  simp only [ofJson?, toJson_eq_ofMembers, Json.toMembers?_ofMembers, Option.bind_eq_bind,
    Option.bind_some, hentries, ofList_entries, pure]

theorem spells_print_toJson (m : OrderedMap Text) : Json.Spells m.toJson.print m.toJson := by
  rw [toJson_eq_ofMembers]
  refine Json.spells_print_object fun member hmember => ?_
  obtain ⟨entry, -, rfl⟩ := List.mem_map.mp hmember
  exact Json.spells_print_text entry.2

end OrderedMap

namespace Options

theorem distinctNames_of_nodup {names : List Text} {members : List (Text × Json)}
    (h : (members.map Prod.fst).Nodup) : distinctNames names members = true :=
  decide_eq_true (h.filter _)

end Options

namespace Fragments

/-- The members of the document for fragments. -/
def members (f : Fragments) : List (Text × Json) :=
  [("separator".toList, .text f.separator), ("opStart".toList, .text f.opening),
    ("opEnd".toList, .text f.closing)]

theorem toJson_eq_ofMembers (f : Fragments) : f.toJson = .ofMembers f.members := rfl

theorem ofJson?_toJson (f : Fragments) : ofJson? f.toJson = some f := by
  have hdistinct : Options.distinctNames Options.fragmentNames f.members = true :=
    Options.distinctNames_of_nodup (by decide : Options.fragmentNames.Nodup)
  have hmembers : ofMembers? f.members = some f := by
    rw [ofMembers?, if_pos hdistinct]
    rfl
  rw [toJson_eq_ofMembers]
  show (Json.ofMembers f.members).toMembers?.bind ofMembers? = some f
  rw [Json.toMembers?_ofMembers, Option.bind_some, hmembers]

theorem spells_print_toJson (f : Fragments) : Json.Spells f.toJson.print f.toJson := by
  rw [toJson_eq_ofMembers]
  refine Json.spells_print_object fun member hmember => ?_
  have hplain : ∀ member ∈ f.members, member.2.Plain := by
    simp only [members, List.forall_mem_cons, List.not_mem_nil, false_imp_iff, implies_true, and_true]
    exact ⟨.text _, .text _, .text _⟩
  exact (hplain member hmember).spells_print

end Fragments

/-! ## Options -/

namespace Options

/-- The members of the document for options. -/
def members (o : Options) : List (Text × Json) :=
  [("skipPartial".toList, .bool o.flags.skipMissing),
    ("runtimePartial".toList, .bool o.flags.runtime),
    ("noIndent".toList, .bool o.flags.noIndent),
    ("allowDynamicPartialName".toList, .bool o.flags.allowDynamicNames),
    ("basedir".toList, .array (o.directories.map .text)),
    ("fileext".toList, .array (o.endings.map .text)),
    ("partials".toList, o.partials.toJson),
    ("ops".toList, o.fragments.toJson)]

theorem toJson_eq_ofMembers (o : Options) : o.toJson = .ofMembers o.members := rfl

theorem map_fst_members (o : Options) : o.members.map Prod.fst = knownNames := rfl

theorem spells_print_members (o : Options) :
    ∀ member ∈ o.members, Json.Spells member.2.print member.2 := by
  simp only [members, List.forall_mem_cons, List.not_mem_nil, false_imp_iff, implies_true, and_true]
  exact ⟨Json.spells_print_bool _, Json.spells_print_bool _, Json.spells_print_bool _,
    Json.spells_print_bool _, Json.spells_print_texts _, Json.spells_print_texts _,
    o.partials.spells_print_toJson, o.fragments.spells_print_toJson⟩

theorem field?_of_lookup {α : Type} {members : List (Text × Json)} {name : Text} {value : Json}
    (h : members.lookup name = some value) (default : α) (decode? : Json → Option α) :
    field? members name default decode? = decode? value := by
  rw [field?, h]

section

variable {o : Options} {added members : List (Text × Json)}

/-- The members of a document for options are found by their names among others that have no
meaning. -/
theorem ofMembers?_eq_some (hdistinct : (members.map Prod.fst).Nodup)
    (hincluded : ∀ member ∈ o.members, member ∈ members)
    (hnegligible : ∀ member ∈ members, negligible member = true) : ofMembers? members = some o := by
  have hpassed : (distinctNames knownNames members && members.all negligible) = true :=
    Bool.and_eq_true_iff.mpr ⟨distinctNames_of_nodup hdistinct, List.all_eq_true.mpr hnegligible⟩
  have hfound : ∀ member ∈ o.members, members.lookup member.1 = some member.2 :=
    fun member hmember => OrderedMap.lookup_of_mem hdistinct (hincluded member hmember)
  simp only [Options.members, List.forall_mem_cons, List.not_mem_nil, false_imp_iff, implies_true,
    and_true] at hfound
  obtain ⟨hskip, hruntime, hnoIndent, hallow, hbasedir, hfileext, hpartials, hops⟩ := hfound
  rw [ofMembers?, if_pos hpassed]
  simp only [field?_of_lookup hskip, field?_of_lookup hruntime, field?_of_lookup hnoIndent,
    field?_of_lookup hallow, field?_of_lookup hbasedir, field?_of_lookup hfileext,
    field?_of_lookup hpartials, field?_of_lookup hops, Json.toBool?, Json.toTexts?_array,
    OrderedMap.ofJson?_toJson, Fragments.ofJson?_toJson]
  rfl

/-- No member with a meaning may be there twice. -/
theorem ofMembers?_of_repeated {name : Text} (hname : name ∈ knownNames) {value : Json}
    (hmem : name ∈ members.map Prod.fst) {repeated : List (Text × Json)}
    (hrepeated : repeated.Perm ((name, value) :: members)) : ofMembers? repeated = none := by
  have htwice : ¬ ((repeated.map Prod.fst).filter (· ∈ knownNames)).Nodup := by
    intro hnodup
    have hperm := (hrepeated.map Prod.fst).filter (· ∈ knownNames)
    rw [List.map_cons, List.filter_cons_of_pos (by simpa using hname)] at hperm
    refine (List.nodup_cons.mp (hperm.nodup_iff.mp hnodup)).1 ?_
    exact List.mem_filter.mpr ⟨hmem, by simpa using hname⟩
  have hrefused : distinctNames knownNames repeated = false := decide_eq_false htwice
  rw [ofMembers?, hrefused]
  rfl

/-- Every member has a compact form, those of the options and those added to them. -/
theorem spells_print_of_perm (hplain : ∀ member ∈ added, member.2.Plain)
    (hmembers : members.Perm (o.members ++ added)) :
    ∀ member ∈ members, Json.Spells member.2.print member.2 := by
  intro member hmember
  rcases List.mem_append.mp (hmembers.mem_iff.mp hmember) with h | h
  · exact spells_print_members o member h
  · exact (hplain member h).spells_print

theorem negligible_of_plain {member : Text × Json} (h : member.2.Plain) :
    negligible member = true := by
  obtain ⟨name, value⟩ := member
  unfold negligible
  cases h <;> simp [Json.isSound, Json.height]

/-- The document of options may have its members in any order, and any strings, truth values and
nulls under other names between them. However it is spelled, it is read as the same options, with
all their lists and maps in order; its compact form is one of the spellings. With one more member
of a known name and any value, at any place, it is refused. -/
theorem document_rearranged (hdistinct : (added.map Prod.fst).Nodup)
    (hunknown : ∀ member ∈ added, member.1 ∉ knownNames)
    (hplain : ∀ member ∈ added, member.2.Plain) (hmembers : members.Perm (o.members ++ added)) :
    o.print = (Json.ofMembers o.members).print ∧
    Json.SpellsDocument (Json.ofMembers members).print (.ofMembers members) ∧
    (∀ s, Json.SpellsDocument s (.ofMembers members) → read? s = some o) ∧
    ∀ name ∈ knownNames, ∀ value repeated, repeated.Perm ((name, value) :: members) →
      ∀ s, Json.SpellsDocument s (.ofMembers repeated) → read? s = none := by
  have hnames : (members.map Prod.fst).Perm (knownNames ++ added.map Prod.fst) := by
    have hperm := hmembers.map Prod.fst
    rwa [List.map_append, map_fst_members] at hperm
  have hread : ∀ {document : List (Text × Json)} {s : Text},
      Json.SpellsDocument s (.ofMembers document) → read? s = ofMembers? document := by
    intro document s hs
    rw [read?, hs.read?, Option.bind_some, ofJson?, Json.toMembers?_ofMembers, Option.bind_some]
  refine ⟨rfl, ?_, fun s hs => ?_, fun name hname value repeated hrepeated s hs => ?_⟩
  · exact (Json.spells_print_object (spells_print_of_perm hplain hmembers)).document
  · rw [hread hs]
    refine ofMembers?_eq_some ?_ (fun member h => ?_) fun member hmember => ?_
    · rw [hnames.nodup_iff, List.nodup_append]
      refine ⟨by decide, hdistinct, ?_⟩
      rintro name hknown other hother rfl
      obtain ⟨member, hmember, rfl⟩ := List.mem_map.mp hother
      exact hunknown member hmember hknown
    · exact hmembers.mem_iff.mpr (List.mem_append_left _ h)
    · rcases List.mem_append.mp (hmembers.mem_iff.mp hmember) with h | h
      · have hknown : member.1 ∈ knownNames :=
          map_fst_members o ▸ List.mem_map_of_mem h
        simp [negligible, hknown]
      · exact negligible_of_plain (hplain member h)
  · rw [hread hs]
    exact ofMembers?_of_repeated hname (hnames.mem_iff.mpr (List.mem_append_left _ hname)) hrepeated

end

/-- Texts with quotes, backslashes, control characters and characters beyond the basic plane, and
names out of order. -/
def unicodeOptions : Options where
  flags := ⟨true, false, true, false⟩
  directories := ["d\"é".toList, []]
  endings := [".\u2028".toList, ".😀".toList]
  partials := .ofList [("b".toList, "\\\x07\n".toList), ([], "ß".toList), ("a".toList, [])]
  fragments := ⟨['+'], [], ['\t']⟩

def unknownMembers : List (Text × Json) :=
  [("hook".toList, .null), ("\x1f/".toList, .text ['\'']), ("Ops".toList, .bool true)]

/-- The last member first. -/
def reversedMembers : List (Text × Json) :=
  (unicodeOptions.members ++ unknownMembers).reverse

def reversedDocument : Text :=
  "\x7b\"Ops\":true,\"\\u001f/\":\"'\",\"hook\":null,".toList ++
    "\"ops\":\x7b\"separator\":\"+\",\"opStart\":\"\",\"opEnd\":\"\\t\"\x7d,".toList ++
    "\"partials\":\x7b\"b\":\"\\\\\\u0007\\n\",\"\":\"ß\",\"a\":\"\"\x7d,".toList ++
    "\"fileext\":[\".\u2028\",\".😀\"],\"basedir\":[\"d\\\"é\",\"\"],".toList ++
    "\"allowDynamicPartialName\":false,\"noIndent\":true,\"runtimePartial\":false,".toList ++
    "\"skipPartial\":true\x7d".toList

theorem document_rearranged_unicode :
    (unknownMembers.map Prod.fst).Nodup ∧ (∀ member ∈ unknownMembers, member.1 ∉ knownNames) ∧
    (∀ member ∈ unknownMembers, member.2.Plain) ∧
    reversedMembers.Perm (unicodeOptions.members ++ unknownMembers) ∧
    read? ('\n' :: (reversedDocument ++ [' '])) = some unicodeOptions ∧
    "noIndent".toList ∈ knownNames ∧
    (reversedMembers ++ [("noIndent".toList, Json.null)]).Perm
      (("noIndent".toList, Json.null) :: reversedMembers) ∧
    read? (Json.ofMembers (reversedMembers ++ [("noIndent".toList, Json.null)])).print = none := by
  have hdistinct : (unknownMembers.map Prod.fst).Nodup := by decide
  have hunknown : ∀ member ∈ unknownMembers, member.1 ∉ knownNames := by
    simp only [unknownMembers, List.forall_mem_cons]
    exact ⟨by decide, by decide, by decide, by simp⟩
  have hplain : ∀ member ∈ unknownMembers, member.2.Plain := by
    simp only [unknownMembers, List.forall_mem_cons]
    exact ⟨.null, .text _, .bool _, by simp⟩
  have hmembers : reversedMembers.Perm (unicodeOptions.members ++ unknownMembers) :=
    List.reverse_perm _
  have hname : "noIndent".toList ∈ knownNames := by decide
  have hrepeated := List.perm_append_singleton ("noIndent".toList, Json.null) reversedMembers
  have hspells : ∀ member ∈ reversedMembers ++ [("noIndent".toList, Json.null)],
      Json.Spells member.2.print member.2 := by
    intro member hmember
    rcases List.mem_append.mp hmember with h | h
    · exact spells_print_of_perm hplain hmembers member h
    · rw [List.mem_singleton.mp h]
      exact .null
  obtain ⟨-, hspelled, hread, hrefused⟩ := document_rearranged hdistinct hunknown hplain hmembers
  have hprint : (Json.ofMembers reversedMembers).print = reversedDocument := by decide +kernel
  rw [hprint] at hspelled
  have hpadded : Json.SpellsDocument (['\n'] ++ (reversedDocument ++ [' ']))
      (.ofMembers reversedMembers) :=
    hspelled.pad (by simp [Json.Gap, Json.isSpace]) (by simp [Json.Gap, Json.isSpace])
  have hreread := hread _ hpadded
  rw [List.singleton_append] at hreread
  exact ⟨hdistinct, hunknown, hplain, hmembers, hreread, hname, hrepeated,
    hrefused _ hname _ _ hrepeated _ (Json.spells_print_object hspells).document⟩

end Options

end Inlay
