/-
File formats and the table of those a project knows. A format has a code and the extensions of
its files. Where two formats share an extension the later one in the table has it; a format that
is merged in takes the place of one with its code and goes to the end. Extensions are looked up in
an index, which is made anew when the formats of the table have changed (`reindex`).
-/
import LocaleSync.Error
import LocaleSync.LocaleFile
import LocaleSync.Text.Index

namespace LocaleSync

/-- A file format. -/
structure Format where
  code : Text
  extensions : List Text
  deriving DecidableEq, Repr

/-- The formats a project knows, and the code that each extension belongs to. -/
structure FormatTable where
  formats : List Format
  index : Text.Index Text
  deriving DecidableEq, Repr

namespace Format

/-- A format from strings. -/
def ofStrings (code : String) (extensions : List String) : Format :=
  ⟨code.toList, extensions.map (·.toList)⟩

/-- The formats every project knows. -/
def builtin : List Format :=
  [ofStrings "excel" ["xlsx"],
   ofStrings "xliff" ["xliff", "xlf"],
   ofStrings "XLIFF1.2" ["xliff", "xlf"],
   ofStrings "xmlAndroid" ["xml"],
   ofStrings "macStrings" ["strings"],
   ofStrings "PO" ["po"],
   ofStrings "propertiesJava" ["properties"],
   ofStrings "YAML" ["yml", "yaml"],
   ofStrings "YAMLi18n" ["yml", "yaml"],
   ofStrings "csv" ["csv"],
   ofStrings "JSON" ["json"],
   ofStrings "SRT" ["srt"],
   ofStrings "md" ["md", "text"]]

/-- The extensions of a built-in format. -/
def builtinExtensions? (code : Text) : Option (List Text) :=
  (builtin.find? (·.code = code)).map (·.extensions)

end Format

namespace FormatTable

/-- The extensions of a format entered with its code. -/
def enter (ix : Text.Index Text) (f : Format) : Text.Index Text :=
  f.extensions.foldl (fun ix ext => Text.Index.insert ext f.code ix) ix

/-- The table with the index of its formats. -/
def reindex (t : FormatTable) : FormatTable :=
  { t with index := t.formats.foldl enter [] }

/-- The table of the built-in formats. -/
def builtin : FormatTable :=
  reindex ⟨Format.builtin, []⟩

/-- A format put at the end, in place of the one with its code. -/
def put (formats : List Format) (f : Format) : List Format :=
  formats.filter (·.code != f.code) ++ [f]

/-- The table with more formats. -/
def merge (t : FormatTable) (overrides : List Format) : FormatTable :=
  reindex { t with formats := overrides.foldl put t.formats }

/-- The code of the format with an extension. -/
def codeFor? (t : FormatTable) (ext : Text) : Option Text :=
  t.index.get? ext

/-- The extensions of the table, in byte order. -/
def allowed (t : FormatTable) : List Text :=
  t.index.keys

/-- The code of the format of a file. -/
def resolve (t : FormatTable) (f : LocaleFile) : Except Error Text :=
  let ext := f.extension?.getD []
  match t.codeFor? ext with
  | some code => .ok code
  | none => .error (.unsupportedExtension ext t.allowed)

end FormatTable

end LocaleSync
