import BranchTalk.Core.ApplicationConfig.Outcomes

set_option autoImplicit false

/-! # What an accepted configuration file may still contain

The checks see the document, not the text: the reader has skipped a byte order mark, left what
follows the value in the stream and kept the last member of each name. -/

namespace BranchTalk.Core.ApplicationConfig

open Json (Value Member IsText Ordered Ws)

/-! ## The checks on a document -/

/-- The fields with the checks of their values, which must be strings. -/
def fieldChecks : List (Bytes × (Bytes → Bool)) :=
  [(ascii "server_address", hasNonWhitespace),
    (ascii "log_level", fun value => (parseLogLevel value).isSome),
    (ascii "data_path", hasNonWhitespace)]

/-- A member of a supported name with a value that passes the check of that field. -/
def supported (m : Member) : Bool :=
  match m.2 with
  | .string value => (fieldChecks.lookup m.1).any fun check => check value
  | _ => false

theorem supported_iff {name : Bytes} {check : Bytes → Bool} {v : Value}
    (h : fieldChecks.lookup name = some check) :
    supported (name, v) = true ↔ ∃ s, v = .string s ∧ check s = true := by
  cases v <;> simp [supported, h]

theorem not_supported_of_name {m : Member} (h : kSupportedFields.contains m.1 = false) :
    supported m = false := by
  have hlookup : fieldChecks.lookup m.1 = none := by
    simp only [kSupportedFields, List.contains_cons, List.contains_nil, Bool.or_false,
      Bool.or_eq_false_iff] at h
    obtain ⟨hserver, hlevel, hpath⟩ := h
    simp [fieldChecks, List.lookup_cons, hserver, hlevel, hpath]
  obtain ⟨name, v⟩ := m
  cases v <;> simp [supported, hlookup]

/-- The document of a member passes the check that the member as written does. -/
theorem supported_document (name : Bytes) (v : Value) :
    supported (name, v.document) = supported (name, v) := by
  cases v <;> simp [supported, Value.document]

theorem withText_succeeds_iff (field : Bytes)
    (store : ApplicationConfig → Bytes → ApplicationConfig) (document : Value)
    (config : ApplicationConfig) :
    Succeeds (withText field store document config) ↔
      ∀ v ∈ find document field, ∃ s, v = .string s ∧ hasNonWhitespace s = true := by
  rw [withText_eq]
  cases find document field with
  | none => simpa using succeeds_pure config
  | some v =>
      cases v with
      | string s =>
          cases h : hasNonWhitespace s with
          | false => simpa [h] using not_succeeds_invalidConfig _
          | true => simpa [h] using succeeds_pure _
      | _ => simpa using not_succeeds_invalidConfig _

theorem withLogLevel_succeeds_iff (document : Value) (config : ApplicationConfig) :
    Succeeds (withLogLevel document config) ↔
      ∀ v ∈ find document (ascii "log_level"), ∃ s, v = .string s ∧ (parseLogLevel s).isSome := by
  rw [withLogLevel_eq]
  cases find document (ascii "log_level") with
  | none => simpa using succeeds_pure config
  | some v =>
      cases v with
      | string s =>
          cases h : parseLogLevel s with
          | none => simpa [h] using not_succeeds_invalidConfig _
          | some level => simpa [h] using succeeds_pure _
      | _ => simpa using not_succeeds_invalidConfig _

/-- The value stored under a field, if there is one, is a string that passes the check. -/
def FieldOk (document : Value) (field : Bytes) (check : Bytes → Bool) : Prop :=
  ∀ v ∈ find document field, ∃ s, v = .string s ∧ check s = true

theorem fields_succeed_iff (document : Value) (config : ApplicationConfig) :
    Succeeds (withServerAddress document config >>= fun config =>
        withLogLevel document config >>= withDataPath document) ↔
      FieldOk document (ascii "server_address") hasNonWhitespace ∧
      FieldOk document (ascii "log_level") (fun value => (parseLogLevel value).isSome) ∧
      FieldOk document (ascii "data_path") hasNonWhitespace := by
  have hpath (config : ApplicationConfig) := withText_succeeds_iff (ascii "data_path")
    (fun config text => { config with dataPath := text }) document config
  have hlevel (config : ApplicationConfig) :=
    (succeeds_bind_iff (x := withLogLevel document config) hpath).trans
      (and_congr_left' (withLogLevel_succeeds_iff document config))
  exact (succeeds_bind_iff hlevel).trans
    (and_congr_left' (withText_succeeds_iff _ _ document config))

/-- **The checks accept** an object exactly when each of its members is supported. -/
theorem parse_succeeds_iff {members : List Member} (h : Ordered members) :
    Succeeds (parseApplicationConfig (.object members)) ↔ ∀ m ∈ members, supported m = true := by
  rw [parse_object]
  cases hfind : members.find? fun item => !kSupportedFields.contains item.1 with
  | some item =>
      have hname : kSupportedFields.contains item.1 = false := by
        simpa using List.find?_some hfind
      refine iff_of_false (not_succeeds_invalidConfig _) fun hall => ?_
      have hitem := hall item (List.mem_of_find?_eq_some hfind)
      rw [not_supported_of_name hname] at hitem
      cases hitem
  | none =>
      -- a member of an ordered object is the one found under its name
      have hfield : ∀ {name check}, fieldChecks.lookup name = some check →
          (FieldOk (.object members) name check ↔
            ∀ v, (name, v) ∈ members → supported (name, v) = true) := by
        intro name check hcheck
        refine forall_congr' fun v => ?_
        rw [supported_iff hcheck]
        exact imp_congr_left h.lookup_eq_some_iff
      refine (fields_succeed_iff _ _).trans ?_
      rw [hfield rfl, hfield rfl, hfield rfl]
      constructor
      · rintro ⟨hserver, hlevel, hpath⟩ ⟨name, v⟩ hm
        have hname : name ∈ kSupportedFields := by
          simpa using List.find?_eq_none.mp hfind _ hm
        simp only [kSupportedFields, List.mem_cons, List.not_mem_nil, or_false] at hname
        rcases hname with rfl | rfl | rfl
        · exact hserver v hm
        · exact hlevel v hm
        · exact hpath v hm
      · intro hall
        exact ⟨fun v => hall _, fun v => hall _, fun v => hall _⟩

/-! ## The file and its document -/

/-- **Nothing is ignored**: the bytes are the text of one object, with white space around it at most,
    and every member written in it is supported. -/
def WholeText (bytes : Bytes) : Prop :=
  ∃ members, IsText (.object members) bytes ∧ ∀ m ∈ members, supported m = true

/-- Where the front of the file is the text of an object whose last member of each name is supported,
    there is nothing else: no byte order mark before it, only white space after it, and no member
    with a later one of the same name that is not supported. -/
def NothingElse (bytes : Bytes) : Prop :=
  ∀ members rest, Json.read bytes = .ok (.object members, rest) →
    (∀ m ∈ Json.lastMembers members, supported m = true) →
    Json.skipByteOrderMark bytes = bytes ∧ Ws rest [] ∧
      ∀ m ∈ members, m ∉ Json.lastMembers members → supported m = true

theorem parse_document_succeeds_iff (v : Value) :
    Succeeds (parseApplicationConfig v.document) ↔
      ∃ members, v = .object members ∧ ∀ m ∈ Json.lastMembers members, supported m = true := by
  cases v with
  | object members =>
      have hparse := parse_succeeds_iff (Json.ordered_documentMembers Json.ordered_nil members)
      have hlast : (∀ m ∈ Json.documentMembers [] members, supported m = true) ↔
          ∀ m ∈ Json.lastMembers members, supported m = true := by
        simp only [Json.mem_document_object]
        constructor
        · intro hall m hm
          rw [← supported_document m.1 m.2]
          exact hall _ ⟨m, hm, rfl⟩
        · rintro hall m ⟨w, hw, rfl⟩
          rw [supported_document]
          exact hall w hw
      simpa [Value.document] using hparse.trans hlast
  | _ =>
      refine iff_of_false (fun h => ?_) (by simp)
      rw [parse_not_object rfl] at h
      exact not_succeeds_invalidConfig _ h

theorem load_succeeds_iff {reader : JsonReader} (hreader : Documented reader)
    (filePath bytes : Bytes) :
    Succeeds (loadApplicationConfig reader filePath (.content bytes)) ↔
      ∃ members rest, Json.read bytes = .ok (.object members, rest) ∧
        ∀ m ∈ Json.lastMembers members, supported m = true := by
  cases hread : Json.read bytes with
  | ok k =>
      obtain ⟨v, rest⟩ := k
      unfold loadApplicationConfig
      simp only [hreader.value bytes v rest hread, parse_document_succeeds_iff]
      constructor
      · rintro ⟨members, rfl, hall⟩
        exact ⟨members, rest, rfl, hall⟩
      · rintro ⟨members, rest', heq, hall⟩
        exact ⟨members, (Prod.mk.inj (Except.ok.inj heq)).1, hall⟩
  | error e =>
      refine iff_of_false (fun h => ?_) (by simp)
      unfold loadApplicationConfig at h
      cases e with
      | syntaxError =>
          obtain ⟨what, hwhat⟩ := hreader.syntaxError bytes hread
          simp only [hwhat] at h
          exact not_succeeds_invalidConfig _ h
      | tooLarge n =>
          obtain ⟨what, hwhat⟩ := hreader.tooLarge bytes n hread
          simp only [hwhat] at h
          obtain ⟨config, hconfig⟩ := h
          cases hconfig

/-- **An accepted file is a whole text of supported members** exactly when there is nothing else in
    it. -/
theorem accepted_is_whole_iff {reader : JsonReader} (hreader : Documented reader)
    (filePath bytes : Bytes) :
    (Succeeds (loadApplicationConfig reader filePath (.content bytes)) → WholeText bytes) ↔
      NothingElse bytes := by
  rw [load_succeeds_iff hreader]
  constructor
  · intro hwhole members rest hread hlast
    -- a text is read whole, so what was read is all there is
    obtain ⟨members', htext, hall⟩ := hwhole ⟨members, rest, hread, hlast⟩
    obtain ⟨heq, hmark, hafter⟩ := (Json.isText_iff hread _).mp htext
    obtain rfl := Value.object.inj heq
    exact ⟨hmark, hafter, fun m hm _ => hall m hm⟩
  · rintro hnothing ⟨members, rest, hread, hlast⟩
    obtain ⟨hmark, hafter, hreplaced⟩ := hnothing members rest hread hlast
    refine ⟨members, (Json.isText_iff hread _).mpr ⟨rfl, hmark, hafter⟩, ?_⟩
    intro m hm
    by_cases hm' : m ∈ Json.lastMembers members
    · exact hlast m hm'
    · exact hreplaced m hm hm'

/-- The level is written twice. -/
def rewritten : Bytes :=
  ascii "\x7b\"log_level\": \"info\", \"data_path\": \"d\", \"log_level\": \"debug\"\x7d\n"

theorem read_rewritten : ∃ members, Json.read rewritten = .ok (.object members, ascii "\n") ∧
    ∀ m ∈ members, supported m = true := by
  have hfront : ((Json.read rewritten).toOption.any fun front => isObject front.1 &&
      (items front.1).all supported && front.2 == ascii "\n") = true := by decide +kernel
  cases hread : Json.read rewritten with
  | error e => simp [hread, Except.toOption] at hfront
  | ok front =>
      obtain ⟨v, rest⟩ := front
      simp only [hread, Except.toOption, Option.any_some, Bool.and_eq_true, beq_iff_eq] at hfront
      obtain ⟨⟨hobject, hall⟩, rfl⟩ := hfront
      obtain ⟨members, rfl⟩ := exists_members hobject
      exact ⟨members, rfl, List.all_eq_true.mp hall⟩

/-- Both of its values pass. -/
theorem accepted_is_whole_rewritten : WholeText rewritten := by
  obtain ⟨members, hread, hall⟩ := read_rewritten
  refine (accepted_is_whole_iff documented_plainReader (ascii "app.json") _).mpr ?_ ?_
  · intro members' rest h _
    rw [hread] at h
    obtain ⟨heq, rfl⟩ := Prod.mk.inj (Except.ok.inj h)
    obtain rfl := Value.object.inj heq
    exact ⟨by decide +kernel, ⟨ascii "\n", rfl, List.forall_mem_singleton.mpr rfl⟩,
      fun m hm _ => hall m hm⟩
  · exact (load_succeeds_iff documented_plainReader _ _).mpr ⟨members, _, hread,
      fun m hm => hall m ((Json.lastMembers_sublist members).subset hm)⟩

/-- A second object in the file is never looked at. -/
theorem load_ignores_rest :
    Documented plainReader ∧
    Succeeds (loadApplicationConfig plainReader (ascii "app.json")
      (.content (ascii "\x7b\x7d \x7b\x7d"))) ∧
    ¬ WholeText (ascii "\x7b\x7d \x7b\x7d") := by
  have hread : Json.read (ascii "\x7b\x7d \x7b\x7d") = .ok (.object [], ascii " \x7b\x7d") := rfl
  refine ⟨documented_plainReader, ?_, ?_⟩
  · exact (load_succeeds_iff documented_plainReader _ _).mpr ⟨[], _, hread, by simp [Json.lastMembers]⟩
  · rintro ⟨members, htext, -⟩
    obtain ⟨-, -, w, hw, hblank⟩ := (Json.isText_iff hread _).mp htext
    rw [List.append_nil] at hw
    exact absurd (hblank 0x7B (by rw [← hw]; decide)) (by decide)

end BranchTalk.Core.ApplicationConfig
