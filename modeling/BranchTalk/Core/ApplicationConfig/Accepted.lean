import BranchTalk.Core.ApplicationConfig.Outcomes

set_option autoImplicit false

/-! # Which documents are accepted, and as what

`Describes` says what a configuration object says, field by field and without an order of checks: a
field that is absent has its default, one that is present has the value given, and there are no
other members. The checks accept exactly the objects that describe a configuration, and return it. -/

namespace BranchTalk.Core.ApplicationConfig

open Logging (LogLevel levelName)
open Json (Value Member)

/-! ## What an object says -/

/-- A text field has its default when nothing is stored under its name; what is stored must be a
    string with a byte that is no white space. -/
def TextField (stored : Option Value) (default text : Bytes) : Prop :=
  stored = none ∧ text = default ∨
  stored = some (.string text) ∧ ∃ character ∈ text, isSpace character = false

/-- The level has its default when nothing is stored; what is stored must be the name of a level. -/
def LevelField (stored : Option Value) (default level : LogLevel) : Prop :=
  stored = none ∧ level = default ∨ stored = some (.string (levelName level))

/-- What the members of an object say. -/
structure Describes (members : List Member) (config : ApplicationConfig) : Prop where
  names : ∀ m ∈ members,
    m.1 = ascii "server_address" ∨ m.1 = ascii "log_level" ∨ m.1 = ascii "data_path"
  serverAddress : TextField (members.lookup (ascii "server_address")) (ascii "127.0.0.1:8080")
    config.serverAddress
  logLevel : LevelField (members.lookup (ascii "log_level")) .info config.logLevel
  dataPath : TextField (members.lookup (ascii "data_path")) (ascii "data") config.dataPath

/-! ## The fields -/

theorem hasNonWhitespace_iff (text : Bytes) :
    hasNonWhitespace text = true ↔ ∃ character ∈ text, isSpace character = false := by
  simp [hasNonWhitespace]

/-- The table of the levels spells each level by its name. -/
theorem parseLogLevel_eq_some_iff (s : Bytes) (level : LogLevel) :
    parseLogLevel s = some level ↔ s = levelName level := by
  constructor
  · intro h
    obtain ⟨before, later, hlevels, -⟩ := List.lookup_eq_some_iff.mp h
    have hmem : (s, level) ∈ levels := by simp [hlevels]
    have hnames : ∀ entry ∈ levels, entry.1 = levelName entry.2 := by
      simp [levels, levelName]
    exact hnames _ hmem
  · rintro rfl
    cases level <;> rfl

theorem run_pure_eq_ok_iff {α : Type} {a b : α} :
    (pure a : Loading α).run = .ok (.ok b) ↔ b = a := by
  constructor
  · rintro ⟨⟩
    rfl
  · rintro rfl
    rfl

theorem run_invalidConfig_ne_ok {α : Type} (message : Bytes) (a : α) :
    (invalidConfig message : Loading α).run ≠ .ok (.ok a) :=
  fun h => not_succeeds_invalidConfig message ⟨a, h⟩

/-- The block of a text field returns the configuration with what the field says. -/
theorem withText_run_iff {field : Bytes} {store : ApplicationConfig → Bytes → ApplicationConfig}
    {document : Value} {config config' : ApplicationConfig} {default : Bytes}
    (hdefault : store config default = config) :
    (withText field store document config).run = .ok (.ok config') ↔
      ∃ text, TextField (find document field) default text ∧ config' = store config text := by
  rw [withText_eq]
  cases find document field with
  | none =>
      rw [run_pure_eq_ok_iff]
      constructor
      · rintro rfl
        exact ⟨default, Or.inl ⟨rfl, rfl⟩, hdefault.symm⟩
      · rintro ⟨text, ⟨-, rfl⟩ | ⟨hstored, -⟩, rfl⟩
        · exact hdefault
        · cases hstored
  | some v =>
      cases v with
      | string s =>
          by_cases hs : hasNonWhitespace s = true
          · simp only [if_pos hs]
            rw [run_pure_eq_ok_iff]
            constructor
            · rintro rfl
              exact ⟨s, Or.inr ⟨rfl, (hasNonWhitespace_iff s).mp hs⟩, rfl⟩
            · rintro ⟨text, ⟨hstored, -⟩ | ⟨hstored, -⟩, rfl⟩ <;> cases hstored
              rfl
          · simp only [if_neg hs]
            refine iff_of_false (run_invalidConfig_ne_ok _ _) ?_
            rintro ⟨text, ⟨hstored, -⟩ | ⟨hstored, hcharacter⟩, -⟩ <;> cases hstored
            exact hs ((hasNonWhitespace_iff s).mpr hcharacter)
      | _ =>
          refine iff_of_false (run_invalidConfig_ne_ok _ _) ?_
          rintro ⟨text, ⟨hstored, -⟩ | ⟨hstored, -⟩, -⟩ <;> cases hstored

theorem withLogLevel_run_iff {document : Value} {config config' : ApplicationConfig} :
    (withLogLevel document config).run = .ok (.ok config') ↔
      ∃ level, LevelField (find document (ascii "log_level")) config.logLevel level ∧
        config' = { config with logLevel := level } := by
  rw [withLogLevel_eq]
  cases find document (ascii "log_level") with
  | none =>
      rw [run_pure_eq_ok_iff]
      constructor
      · rintro rfl
        exact ⟨_, Or.inl ⟨rfl, rfl⟩, rfl⟩
      · rintro ⟨level, ⟨-, rfl⟩ | hstored, rfl⟩
        · rfl
        · cases hstored
  | some v =>
      cases v with
      | string s =>
          cases hs : parseLogLevel s with
          | some level =>
              simp only [hs]
              rw [run_pure_eq_ok_iff]
              constructor
              · rintro rfl
                exact ⟨level, Or.inr (by rw [(parseLogLevel_eq_some_iff s level).mp hs]), rfl⟩
              · rintro ⟨level', ⟨hstored, -⟩ | hstored, rfl⟩
                · cases hstored
                · obtain rfl := Value.string.inj (Option.some.inj hstored)
                  rw [(parseLogLevel_eq_some_iff _ level').mpr rfl] at hs
                  rw [Option.some.inj hs]
          | none =>
              simp only [hs]
              refine iff_of_false (run_invalidConfig_ne_ok _ _) ?_
              rintro ⟨level', ⟨hstored, -⟩ | hstored, -⟩
              · cases hstored
              · obtain rfl := Value.string.inj (Option.some.inj hstored)
                rw [(parseLogLevel_eq_some_iff _ level').mpr rfl] at hs
                cases hs
      | _ =>
          refine iff_of_false (run_invalidConfig_ne_ok _ _) ?_
          rintro ⟨level', ⟨hstored, -⟩ | hstored, -⟩ <;> cases hstored

/-! ## The whole document -/

/-- The three blocks return a configuration exactly when each of its fields is what is said. -/
theorem fields_run_iff (document : Value) (config : ApplicationConfig) :
    (withServerAddress document {} >>= fun config =>
        withLogLevel document config >>= withDataPath document).run = .ok (.ok config) ↔
      TextField (find document (ascii "server_address")) (ascii "127.0.0.1:8080")
        config.serverAddress ∧
      LevelField (find document (ascii "log_level")) .info config.logLevel ∧
      TextField (find document (ascii "data_path")) (ascii "data") config.dataPath := by
  have hserver (config' : ApplicationConfig) :
      (withServerAddress document {}).run = .ok (.ok config') ↔
        ∃ text, TextField (find document (ascii "server_address")) (ascii "127.0.0.1:8080") text ∧
          config' = { ({} : ApplicationConfig) with serverAddress := text } :=
    withText_run_iff rfl
  have hpath (config config' : ApplicationConfig) :
      (withDataPath document config).run = .ok (.ok config') ↔
        ∃ text, TextField (find document (ascii "data_path")) config.dataPath text ∧
          config' = { config with dataPath := text } :=
    withText_run_iff rfl
  rw [run_bind_eq_ok_iff]
  constructor
  · rintro ⟨config₁, h₁, hrest⟩
    obtain ⟨config₂, h₂, h₃⟩ := run_bind_eq_ok_iff.mp hrest
    obtain ⟨address, haddress, rfl⟩ := (hserver config₁).mp h₁
    obtain ⟨level, hlevel, rfl⟩ := withLogLevel_run_iff.mp h₂
    obtain ⟨path, hpath', rfl⟩ := (hpath _ config).mp h₃
    exact ⟨haddress, hlevel, hpath'⟩
  · rintro ⟨haddress, hlevel, hpath'⟩
    obtain ⟨address, level, path⟩ := config
    exact ⟨_, (hserver _).mpr ⟨address, haddress, rfl⟩, run_bind_eq_ok_iff.mpr
      ⟨_, withLogLevel_run_iff.mpr ⟨level, hlevel, rfl⟩, (hpath _ _).mpr ⟨path, hpath', rfl⟩⟩⟩

theorem parse_object_run_iff (members : List Member) (config : ApplicationConfig) :
    (parseApplicationConfig (.object members)).run = .ok (.ok config) ↔
      Describes members config := by
  have hsupported : (∀ m ∈ members,
      m.1 = ascii "server_address" ∨ m.1 = ascii "log_level" ∨ m.1 = ascii "data_path") ↔
      members.find? (fun item => !kSupportedFields.contains item.1) = none := by
    simp [kSupportedFields, or_iff_not_imp_left]
  rw [parse_object]
  cases hfind : members.find? fun item => !kSupportedFields.contains item.1 with
  | some item =>
      refine iff_of_false (run_invalidConfig_ne_ok _ _) fun hdescribes => ?_
      rw [hsupported.mp hdescribes.names] at hfind
      cases hfind
  | none =>
      refine (fields_run_iff _ config).trans ?_
      constructor
      · rintro ⟨hserver, hlevel, hpath⟩
        exact ⟨hsupported.mpr hfind, hserver, hlevel, hpath⟩
      · intro hdescribes
        exact ⟨hdescribes.serverAddress, hdescribes.logLevel, hdescribes.dataPath⟩

/-- The document is an object that says this. -/
def Says (document : Value) (config : ApplicationConfig) : Prop :=
  ∃ members, document = .object members ∧ Describes members config

theorem parse_run_iff (document : Value) (config : ApplicationConfig) :
    (parseApplicationConfig document).run = .ok (.ok config) ↔ Says document config := by
  cases hobject : isObject document with
  | true =>
      obtain ⟨members, rfl⟩ := exists_members hobject
      rw [parse_object_run_iff]
      constructor
      · intro hdescribes
        exact ⟨members, rfl, hdescribes⟩
      · rintro ⟨members', hmembers, hdescribes⟩
        rwa [Value.object.inj hmembers]
  | false =>
      rw [parse_not_object hobject]
      refine iff_of_false (run_invalidConfig_ne_ok _ _) ?_
      rintro ⟨members, rfl, -⟩
      cases hobject

/-- With no name repeated, the order of the members does not count. -/
theorem Describes.perm {members members' : List Member} (hnodup : (members.map Prod.fst).Nodup)
    (hperm : members.Perm members') {config : ApplicationConfig} (h : Describes members config) :
    Describes members' config := by
  have hlookup : ∀ name, members'.lookup name = members.lookup name := by
    intro name
    refine Option.ext fun v => ?_
    rw [Json.lookup_eq_some_iff_of_nodup hnodup,
      Json.lookup_eq_some_iff_of_nodup ((hperm.map Prod.fst).nodup_iff.mp hnodup), hperm.mem_iff]
  refine ⟨fun m hm => h.names m (hperm.mem_iff.mpr hm), ?_, ?_, ?_⟩
  · rw [hlookup]
    exact h.serverAddress
  · rw [hlookup]
    exact h.logLevel
  · rw [hlookup]
    exact h.dataPath

/-- **What is accepted, and as what.** The checks return a configuration exactly when the document
    is an object that says it, whatever the order of its members, and every other document is a
    failure with `invalid_argument`. -/
theorem parse_accepts_iff (document : Value) :
    (∀ config, (parseApplicationConfig document).run = .ok (.ok config) ↔ Says document config) ∧
    ((¬ ∃ config, Says document config) ↔
      ∃ e, (parseApplicationConfig document).run = .ok (.error e) ∧ e.code = .invalidArgument) ∧
    ∀ members members' config, document = .object members → (members.map Prod.fst).Nodup →
      members.Perm members' →
      ((parseApplicationConfig (.object members')).run = .ok (.ok config) ↔
        (parseApplicationConfig document).run = .ok (.ok config)) := by
  refine ⟨parse_run_iff document, ?_, ?_⟩
  · obtain ⟨r, hr, hcode⟩ := parse_returns document
    cases r with
    | error e =>
        refine iff_of_true ?_ ⟨e, hr, hcode e rfl⟩
        rintro ⟨config, hsays⟩
        rw [(parse_run_iff document config).mpr hsays] at hr
        cases hr
    | ok config =>
        refine iff_of_false (not_not.mpr ⟨config, (parse_run_iff document config).mp hr⟩) ?_
        rintro ⟨e, he, -⟩
        rw [hr] at he
        cases he
  · rintro members members' config rfl hnodup hperm
    rw [parse_object_run_iff, parse_object_run_iff]
    exact ⟨fun h => h.perm ((hperm.map Prod.fst).nodup_iff.mp hnodup) hperm.symm,
      fun h => h.perm hnodup hperm⟩

end BranchTalk.Core.ApplicationConfig
