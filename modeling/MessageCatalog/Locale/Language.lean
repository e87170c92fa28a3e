/-
# `MessageCatalog.Locale.Language` — the known languages

A language is known by its ISO 639 code.  The table gives for each its
English name and the territory assumed when a catalog names the language
alone; constructed languages have none.  Codes are looked up without regard
to ASCII case and to blank space around them.
-/
import MessageCatalog.Locale.Territory

namespace MessageCatalog

/-- A language: its code, its English name and the code of the territory
assumed for it. -/
structure Language where
  code : String
  name : String
  home : String
deriving DecidableEq, Repr

namespace Language

/-- The known languages, by ascending code. -/
def all : List Language :=
  [
    ⟨"aa", "Afar", "ET"⟩, ⟨"ab", "Abkhazian", "GE"⟩, ⟨"af", "Afrikaans", "ZA"⟩,
    ⟨"am", "Amharic", "ET"⟩, ⟨"ar", "Arabic", "EG"⟩, ⟨"as", "Assamese", "IN"⟩,
    ⟨"ay", "Aymara", "BO"⟩, ⟨"az", "Azerbaijani", "AZ"⟩, ⟨"ba", "Bashkir", "RU"⟩,
    ⟨"be", "Belarusian", "BY"⟩, ⟨"bg", "Bulgarian", "BG"⟩, ⟨"bi", "Bislama", "VU"⟩,
    ⟨"bn", "Bengali", "BD"⟩, ⟨"bo", "Tibetan", "CN"⟩, ⟨"br", "Breton", "FR"⟩,
    ⟨"bs", "Bosnian", "BA"⟩, ⟨"ca", "Catalan", "ES"⟩, ⟨"co", "Corsican", "FR"⟩,
    ⟨"cs", "Czech", "CZ"⟩, ⟨"cy", "Welsh", "GB"⟩, ⟨"da", "Danish", "DK"⟩, ⟨"de", "German", "DE"⟩,
    ⟨"dv", "Divehi", "MV"⟩, ⟨"dz", "Dzongkha", "BT"⟩, ⟨"el", "Greek", "GR"⟩,
    ⟨"en", "English", "US"⟩, ⟨"eo", "Esperanto", ""⟩, ⟨"es", "Spanish", "ES"⟩,
    ⟨"et", "Estonian", "EE"⟩, ⟨"eu", "Basque", "ES"⟩, ⟨"fa", "Persian", "IR"⟩,
    ⟨"fi", "Finnish", "FI"⟩, ⟨"fil", "Filipino", "PH"⟩, ⟨"fj", "Fijian", "FJ"⟩,
    ⟨"fo", "Faroese", "FO"⟩, ⟨"fr", "French", "FR"⟩, ⟨"fur", "Friulian", "IT"⟩,
    ⟨"fy", "Western Frisian", "NL"⟩, ⟨"ga", "Irish", "IE"⟩, ⟨"gd", "Gaelic", "GB"⟩,
    ⟨"gl", "Galician", "ES"⟩, ⟨"gn", "Guarani", "PY"⟩, ⟨"gu", "Gujarati", "IN"⟩,
    ⟨"gv", "Manx", "IM"⟩, ⟨"ha", "Hausa", "NG"⟩, ⟨"he", "Hebrew", "IL"⟩, ⟨"hi", "Hindi", "IN"⟩,
    ⟨"hr", "Croatian", "HR"⟩, ⟨"hu", "Hungarian", "HU"⟩, ⟨"hy", "Armenian", "AM"⟩,
    ⟨"ia", "Interlingua", ""⟩, ⟨"id", "Indonesian", "ID"⟩, ⟨"ie", "Interlingue", ""⟩,
    ⟨"ik", "Inupiak", "US"⟩, ⟨"is", "Icelandic", "IS"⟩, ⟨"it", "Italian", "IT"⟩,
    ⟨"iu", "Inuktitut", "CA"⟩, ⟨"ja", "Japanese", "JP"⟩, ⟨"jv", "Javanese", "ID"⟩,
    ⟨"ka", "Georgian", "GE"⟩, ⟨"kk", "Kazakh", "KZ"⟩, ⟨"kl", "Greenlandic", "GL"⟩,
    ⟨"km", "Khmer", "KH"⟩, ⟨"kn", "Kannada", "IN"⟩, ⟨"ko", "Korean", "KR"⟩,
    ⟨"ks", "Kashmiri", "IN"⟩, ⟨"ku", "Kurdish", "TR"⟩, ⟨"kw", "Cornish", "GB"⟩,
    ⟨"ky", "Kirghiz", "KG"⟩, ⟨"la", "Latin", "VA"⟩, ⟨"lb", "Luxembourgish", "LU"⟩,
    ⟨"ln", "Lingala", "CD"⟩, ⟨"lo", "Lao", "LA"⟩, ⟨"lt", "Lithuanian", "LT"⟩,
    ⟨"lv", "Latvian", "LV"⟩, ⟨"mg", "Malagasy", "MG"⟩, ⟨"mi", "Maori", "NZ"⟩,
    ⟨"mk", "Macedonian", "MK"⟩, ⟨"ml", "Malayalam", "IN"⟩, ⟨"mn", "Mongolian", "MN"⟩,
    ⟨"mr", "Marathi", "IN"⟩, ⟨"ms", "Malay", "MY"⟩, ⟨"mt", "Maltese", "MT"⟩,
    ⟨"my", "Burmese", "MM"⟩, ⟨"na", "Nauru", "NR"⟩, ⟨"nah", "Nahuatl", "MX"⟩,
    ⟨"nb", "Norwegian Bokmal", "NO"⟩, ⟨"ne", "Nepali", "NP"⟩, ⟨"nl", "Dutch", "NL"⟩,
    ⟨"nn", "Norwegian Nynorsk", "NO"⟩, ⟨"nso", "Northern Sotho", "ZA"⟩, ⟨"oc", "Occitan", "FR"⟩,
    ⟨"om", "Oromo", "ET"⟩, ⟨"or", "Oriya", "IN"⟩, ⟨"pa", "Punjabi", "IN"⟩,
    ⟨"pl", "Polish", "PL"⟩, ⟨"ps", "Pashto", "AF"⟩, ⟨"pt", "Portuguese", "BR"⟩,
    ⟨"qu", "Quechua", "PE"⟩, ⟨"rm", "Romansh", "CH"⟩, ⟨"rn", "Rundi", "BI"⟩,
    ⟨"ro", "Romanian", "RO"⟩, ⟨"ru", "Russian", "RU"⟩, ⟨"rw", "Kinyarwanda", "RW"⟩,
    ⟨"sa", "Sanskrit", "IN"⟩, ⟨"sd", "Sindhi", "PK"⟩, ⟨"se", "Northern Sami", "NO"⟩,
    ⟨"si", "Sinhala", "LK"⟩, ⟨"sk", "Slovak", "SK"⟩, ⟨"sl", "Slovenian", "SI"⟩,
    ⟨"sm", "Samoan", "WS"⟩, ⟨"sn", "Shona", "ZW"⟩, ⟨"so", "Somali", "SO"⟩,
    ⟨"sq", "Albanian", "AL"⟩, ⟨"sr", "Serbian", "RS"⟩, ⟨"ss", "Swati", "ZA"⟩,
    ⟨"st", "Southern Sotho", "ZA"⟩, ⟨"su", "Sundanese", "ID"⟩, ⟨"sv", "Swedish", "SE"⟩,
    ⟨"sw", "Swahili", "TZ"⟩, ⟨"ta", "Tamil", "IN"⟩, ⟨"te", "Telugu", "IN"⟩,
    ⟨"tg", "Tajik", "TJ"⟩, ⟨"th", "Thai", "TH"⟩, ⟨"ti", "Tigrinya", "ET"⟩,
    ⟨"tk", "Turkmen", "TM"⟩, ⟨"tl", "Tagalog", "PH"⟩, ⟨"tn", "Tswana", "ZA"⟩,
    ⟨"to", "Tongan", "TO"⟩, ⟨"tr", "Turkish", "TR"⟩, ⟨"ts", "Tsonga", "ZA"⟩,
    ⟨"tt", "Tatar", "RU"⟩, ⟨"ug", "Uigur", "CN"⟩, ⟨"uk", "Ukrainian", "UA"⟩,
    ⟨"ur", "Urdu", "PK"⟩, ⟨"uz", "Uzbek", "UZ"⟩, ⟨"vi", "Vietnamese", "VN"⟩,
    ⟨"vo", "Volapuk", ""⟩, ⟨"wa", "Walloon", "BE"⟩, ⟨"wo", "Wolof", "SN"⟩, ⟨"xh", "Xhosa", "ZA"⟩,
    ⟨"yi", "Yiddish", "UA"⟩, ⟨"yo", "Yoruba", "NG"⟩, ⟨"za", "Zhuang", "CN"⟩,
    ⟨"zh", "Chinese", "CN"⟩, ⟨"zu", "Zulu", "ZA"⟩
  ]

/-- The language with the given code. -/
def ofCode? (code : List Char) : Option Language :=
  let wanted := String.ofList ((trimBlank code).map Char.toLower)
  all.find? fun language => language.code == wanted

/-- The territory assumed for a language. -/
def defaultTerritory? (language : Language) : Option Territory :=
  Territory.ofCode? language.home.toList

end Language

end MessageCatalog
