/-
# `MessageCatalog.Plural.Table` — the plural rules of the known languages

A row gives the rules that several languages share, the names of their
forms and the languages, some of them only as spoken in one territory.  It
also quotes the header that gettext catalogs of these languages carry.

A language in a territory is looked up first as such, and then as spoken
anywhere.
-/
import MessageCatalog.Locale.Code
import MessageCatalog.Plural.Selection

namespace MessageCatalog.Plural

/-! ## Tests -/

/-- The count is this number. -/
def is (operand : UInt8) : Test := { comparison := .single .equal operand }

/-- The count is another number. -/
def isNot (operand : UInt8) : Test := { is operand with negated := true }

/-- The count is at most this number. -/
def upTo (operand : UInt8) : Test := { comparison := .single .atMost operand }

/-- The count is this number or a greater one. -/
def startingAt (operand : UInt8) : Test :=
  { comparison := .single .below operand, negated := true }

/-- The count lies in a range. -/
def among (low high : UInt8) : Test := { comparison := .between low high }

/-- The count lies outside of a range. -/
def outside (low high : UInt8) : Test := { among low high with negated := true }

/-- The test, on the last digit of the count. -/
def lastDigit (test : Test) : Test := { test with part := .lastDigit }

/-- The test, on the last two digits of the count. -/
def lastTwo (test : Test) : Test := { test with part := .lastTwoDigits }

/-! ## Rules -/

/-- The same form for every count. -/
def universal : List Rule := []

/-- One, and everything else. -/
def one : List Rule := [⟨is 1, []⟩]

/-- Zero and one, and everything else. -/
def zeroOrOne : List Rule := [⟨upTo 1, []⟩]

/-- Numbers that end in 1 but not in 11, other numbers but zero, zero. -/
def latvian : List Rule :=
  [⟨lastDigit (is 1), [(.and, lastTwo (isNot 11))]⟩, ⟨isNot 0, []⟩]

/-- Numbers that end in 1 but not in 11, and everything else. -/
def icelandic : List Rule := [⟨lastDigit (is 1), [(.and, lastTwo (isNot 11))]⟩]

/-- One, two, and everything else. -/
def oneTwo : List Rule := [⟨is 1, []⟩, ⟨is 2, []⟩]

/-- 1 and 11, 2 and 12, other numbers from 3 to 19, and everything else. -/
def gaelic : List Rule :=
  [⟨is 1, [(.or, is 11)]⟩, ⟨is 2, [(.or, is 12)]⟩, ⟨among 3 19, []⟩]

/-- One, two to four, and everything else. -/
def slovak : List Rule := [⟨is 1, []⟩, ⟨among 2 4, []⟩]

/-- Numbers that end in 1, those that end in 2, and everything else. -/
def macedonian : List Rule := [⟨lastDigit (is 1), []⟩, ⟨lastDigit (is 2), []⟩]

/-- Numbers that end in 1, those that end in 2 to 9, and teens and tens. -/
def lithuanian : List Rule :=
  [⟨lastDigit (is 1), [(.and, lastTwo (isNot 11))]⟩,
    ⟨lastDigit (isNot 0), [(.and, lastTwo (outside 10 19))]⟩]

/-- Numbers that end in 1, those that end in 2 to 4, and everything else. -/
def eastSlavic : List Rule :=
  [⟨lastDigit (is 1), [(.and, lastTwo (isNot 11))]⟩,
    ⟨lastDigit (among 2 4), [(.and, lastTwo (outside 10 19))]⟩]

/-- One, numbers that end in 2 to 4, and everything else. -/
def polish : List Rule :=
  [⟨is 1, []⟩, ⟨lastDigit (among 2 4), [(.and, lastTwo (outside 10 19))]⟩]

/-- One, zero and numbers that end in 01 to 19, and everything else. -/
def romanian : List Rule := [⟨is 1, []⟩, ⟨is 0, [(.or, lastTwo (among 1 19))]⟩]

/-- Numbers that end in 01, in 02, in 03 or 04, and everything else. -/
def slovenian : List Rule :=
  [⟨lastTwo (is 1), []⟩, ⟨lastTwo (is 2), []⟩, ⟨lastTwo (among 3 4), []⟩]

/-- One, zero and numbers that end in 01 to 10, in 11 to 19, and everything
else. -/
def maltese : List Rule :=
  [⟨is 1, []⟩, ⟨is 0, [(.or, lastTwo (among 1 10))]⟩, ⟨lastTwo (among 11 19), []⟩]

/-- Zero, one, two to five, six, and everything else. -/
def welsh : List Rule := [⟨is 0, []⟩, ⟨is 1, []⟩, ⟨among 2 5, []⟩, ⟨is 6, []⟩]

/-- Zero, one, two, numbers that end in 03 to 10, in 11 to 99, and everything
else. -/
def arabic : List Rule :=
  [⟨is 0, []⟩, ⟨is 1, []⟩, ⟨is 2, []⟩, ⟨lastTwo (among 3 10), []⟩, ⟨lastTwo (startingAt 11), []⟩]

/-- Zero and one, numbers that end in 4, 6 or 9, and everything else. -/
def tagalog : List Rule :=
  [⟨upTo 1, []⟩,
    ⟨lastDigit (is 4), [(.or, lastDigit (is 6)), (.or, lastDigit (is 9))]⟩]

/-! ## Rows -/

/-- The rules of some languages. -/
structure Row where
  rules : List Rule
  /-- The names of the forms. -/
  forms : List String
  /-- The codes of the languages, each with the territory it is confined
  to. -/
  languages : List (String × Option String)
  /-- The header of gettext catalogs. -/
  gettext : String
deriving DecidableEq, Repr

/-- Languages that are not confined to a territory. -/
def everywhere (codes : List String) : List (String × Option String) :=
  codes.map fun code => (code, none)

/-- The rules of all covered languages. -/
def table : List Row :=
  [
    { rules := universal
      forms := ["Universal Form"]
      languages := everywhere [
        "bi", "my", "zh", "dz", "fj", "gn", "hu", "id", "ja", "jv", "ko", "ms", "na", "om", "fa",
        "su", "tt", "th", "bo", "tr", "vi", "yo", "za"]
      gettext := "nplurals=1; plural=0;" },
    { rules := one
      forms := ["Singular", "Plural"]
      languages := everywhere [
        "ab", "aa", "af", "sq", "am", "as", "ay", "az", "ba", "eu", "bn", "bg", "ca", "kw", "co",
        "da", "nl", "en", "eo", "et", "fo", "fi", "fur", "fy", "gl", "ka", "de", "el", "kl",
        "gu", "ha", "he", "hi", "ia", "ie", "it", "kn", "ks", "kk", "km", "rw", "ky", "ku", "lo",
        "la", "ln", "lb", "mg", "ml", "mr", "mn", "ne", "nso", "nb", "nn", "oc", "or", "ps",
        "pt", "pa", "qu", "rm", "rn", "sn", "sd", "si", "so", "st", "es", "sw", "ss", "sv", "tg",
        "ta", "te", "to", "ts", "tn", "tk", "ug", "ur", "uz", "vo", "wo", "xh", "yi", "zu", "nah"]
      gettext := "nplurals=2; plural=(n != 1);" },
    { rules := zeroOrOne
      forms := ["Singular", "Plural"]
      languages :=
        everywhere ["hy", "br", "fr"] ++ [("pt", some "BR")] ++ everywhere ["fil", "ti", "wa"]
      gettext := "nplurals=2; plural=(n > 1);" },
    { rules := latvian
      forms := ["Singular", "Plural", "Nullar"]
      languages := everywhere ["lv"]
      gettext := "nplurals=3; plural=(n%10==1 && n%100!=11 ? 0 : n != 0 ? 1 : 2);" },
    { rules := icelandic
      forms := ["Singular", "Plural"]
      languages := everywhere ["is"]
      gettext := "nplurals=2; plural=(n%10==1 && n%100!=11 ? 0 : 1);" },
    { rules := oneTwo
      forms := ["Singular", "Dual", "Plural"]
      languages := everywhere ["dv", "iu", "ik", "ga", "gv", "mi", "se", "sm", "sa"]
      gettext := "nplurals=3; plural=(n==1 ? 0 : n==2 ? 1 : 2);" },
    { rules := gaelic
      forms := ["1/11", "2/12", "Few", "Many"]
      languages := everywhere ["gd"]
      gettext :=
        "nplurals=4; plural=(n==1 || n==11) ? 0 : (n==2 || n==12) ? 1 : (n > 2 && n < 20) ? 2 : 3;" },
    { rules := slovak
      forms := ["Singular", "Paucal", "Plural"]
      languages := everywhere ["sk", "cs"]
      gettext := "nplurals=3; plural=((n==1) ? 0 : (n>=2 && n<=4) ? 1 : 2);" },
    { rules := macedonian
      forms := ["Singular", "Dual", "Plural"]
      languages := everywhere ["mk"]
      gettext := "nplurals=3; plural=(n%100==1 ? 0 : n%100==2 ? 1 : 2);" },
    { rules := lithuanian
      forms := ["Singular", "Paucal", "Plural"]
      languages := everywhere ["lt"]
      gettext :=
        "nplurals=3; plural=(n%10==1 && n%100!=11 ? 0 : n%10>=2 && (n%100<10 || n%100>=20) ? 1 : 2);" },
    { rules := eastSlavic
      forms := ["Singular", "Dual", "Plural"]
      languages := everywhere ["bs", "be", "hr", "ru", "sr", "uk"]
      gettext :=
        "nplurals=3; plural=(n%10==1 && n%100!=11 ? 0 : n%10>=2 && n%10<=4 && (n%100<10 || n%100>=20) ? 1 : 2);" },
    { rules := polish
      forms := ["Singular", "Paucal", "Plural"]
      languages := everywhere ["pl"]
      gettext :=
        "nplurals=3; plural=(n==1 ? 0 : n%10>=2 && n%10<=4 && (n%100<10 || n%100>=20) ? 1 : 2);" },
    { rules := romanian
      forms := ["Singular", "Paucal", "Plural"]
      languages := everywhere ["ro"]
      gettext := "nplurals=3; plural=(n==1 ? 0 : (n==0 || (n%100 > 0 && n%100 < 20)) ? 1 : 2);" },
    { rules := slovenian
      forms := ["Singular", "Dual", "Trial", "Plural"]
      languages := everywhere ["sl"]
      gettext :=
        "nplurals=4; plural=(n%100==1 ? 0 : n%100==2 ? 1 : n%100==3 || n%100==4 ? 2 : 3);" },
    { rules := maltese
      forms := ["Singular", "Paucal", "Greater Paucal", "Plural"]
      languages := everywhere ["mt"]
      gettext :=
        "nplurals=4; plural=(n==1 ? 0 : (n==0 || (n%100>=1 && n%100<=10)) ? 1 : (n%100>=11 && n%100<=19) ? 2 : 3);" },
    { rules := welsh
      forms := ["Nullar", "Singular", "Dual", "Sexal", "Plural"]
      languages := everywhere ["cy"]
      gettext := "nplurals=5; plural=(n==0 ? 0 : n==1 ? 1 : (n>=2 && n<=5) ? 2 : n==6 ? 3 : 4);" },
    { rules := arabic
      forms := ["Nullar", "Singular", "Dual", "Minority Plural", "Plural", "Plural (100-102, ...)"]
      languages := everywhere ["ar"]
      gettext :=
        "nplurals=6; plural=(n==0 ? 0 : n==1 ? 1 : n==2 ? 2 : (n%100>=3 && n%100<=10) ? 3 : n%100>=11 ? 4 : 5);" },
    { rules := tagalog
      forms := ["Singular", "Plural (consonant-ended)", "Plural (vowel-ended)"]
      languages := everywhere ["tl"]
      gettext := "nplurals=3; plural=(n==1 ? 0 : (n%10==4 || n%10==6 || n%10== 9) ? 1 : 2);" }
  ]

namespace Row

/-- The program of a row. -/
def program (row : Row) : Program := .ofRules row.rules

/-- The rules of a row as compiled catalogs carry them. -/
def bytes (row : Row) : Bytes := row.program.toBytes

/-- The number of forms that a row names. -/
def formCount (row : Row) : Nat := row.forms.length

/-- A row covers a language as spoken in a territory, or anywhere. -/
def covers (row : Row) (language : Language) (territory : Option Territory) : Bool :=
  row.languages.any fun (code, confined) =>
    code == language.code && confined == territory.map Territory.code

end Row

/-- The row of a language as spoken in a territory, or anywhere. -/
def lookup (language : Language) (territory : Option Territory) : Option Row :=
  match table.find? fun row => row.covers language territory with
  | some row => some row
  | none => table.find? fun row => row.covers language none

/-- The row of a language code. -/
def lookupCode (code : String) : Option Row :=
  match Locale.parts code with
  | (some language, territory) => lookup language territory
  | (none, _) => none

/-- The number of plural forms of a language code. -/
def formCount? (code : String) : Option Nat := (lookupCode code).map Row.formCount

end MessageCatalog.Plural
