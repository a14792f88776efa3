/-
What can go wrong, by cause. `message` is the sentence shown for a cause and `help` the hint that
goes with it, where there is one.
-/
import LocaleSync.Path

namespace LocaleSync

/-- What was being done with a path when storage failed. -/
inductive StorageAction where
  | resolvingRoot
  | reading
  | readingUserConfig
  | creatingDirectory
  | writing
  deriving DecidableEq, Repr

/-- A setting that is absent or has no meaning. -/
inductive ConfigFault where
  | noPushPattern
  | noSourceLanguage
  | unknownAction (text : Text)
  deriving DecidableEq, Repr

/-- The cause of a failure. -/
inductive Error where
  | patternInvalid (pattern expected : Text)
  | patternRegex (pattern : Text)
  | languageNotFound (identifier : Text)
  | languagesNotConfigured (codes : List Text)
  | unsupportedExtension (extension : Text) (allowed : List Text)
  | filesNotFound (pattern : Text)
  | configNotFound (path : Path)
  | configMalformed (path : Path)
  | configInvalid (fault : ConfigFault)
  | languagesMalformed
  | service (message : Text)
  | promptCancelled
  | storage (action : StorageAction) (path : Path)
  deriving DecidableEq, Repr

/-- The action as messages word it. -/
def StorageAction.words : StorageAction → Text
  | .resolvingRoot => "resolving project directory ".toList
  | .reading => "reading ".toList
  | .readingUserConfig => "reading user config ".toList
  | .creatingDirectory => "creating directory ".toList
  | .writing => "writing ".toList

/-- The fault as messages word it. -/
def ConfigFault.words : ConfigFault → Text
  | .noPushPattern => "no [push] pattern configured".toList
  | .noSourceLanguage => "no source_language in [project]".toList
  | .unknownAction text =>
    "unknown update action '".toList ++ text ++ "', expected skip, replace or set_new".toList

namespace Error

/-- The sentence shown for an error. -/
def message : Error → Text
  | .patternInvalid pattern _ => "Pattern not valid: '".toList ++ pattern ++ "'".toList
  | .patternRegex pattern => "Failed to compile pattern '".toList ++ pattern ++ "'".toList
  | .languageNotFound identifier =>
    "Language '".toList ++ identifier ++ "' not found in the project".toList
  | .languagesNotConfigured codes =>
    "Languages not configured in project as destination languages: ".toList ++
      Text.joinWith [','] codes
  | .unsupportedExtension extension _ =>
    "File format `".toList ++ extension ++ "` not in allowed list of file formats".toList
  | .filesNotFound pattern => "Files not found by pattern `".toList ++ pattern ++ "`".toList
  | .configNotFound path => "Project config not found at ".toList ++ path.text
  | .configMalformed path => "Failed to parse ".toList ++ path.text
  | .configInvalid fault => "Invalid config: ".toList ++ fault.words
  | .languagesMalformed => "Failed to parse project languages".toList
  | .service message => "Project API request failed: ".toList ++ message
  | .promptCancelled => "Prompt cancelled by user".toList
  | .storage action path => "IO error: ".toList ++ action.words ++ path.text

/-- The hint shown with an error. -/
def help? : Error → Option Text
  | .patternInvalid _ expected =>
    some ("The pattern should contain one of: ".toList ++ expected)
  | .languageNotFound _ => some "Check the [[languages]] list in .qordoba.toml".toList
  | .unsupportedExtension _ allowed =>
    some ("Allowed extensions: ".toList ++ Text.joinWith ", ".toList allowed)
  | .filesNotFound _ => some "Check [push] pattern in .qordoba.toml".toList
  | .configNotFound _ => some "Create a .qordoba.toml file or pass --config".toList
  | .configMalformed _ => some "Check the TOML syntax in your config file".toList
  | _ => none

end Error

end LocaleSync
