import ShapeSql.Word.Pattern

namespace ShapeSql.Word

/-- What to replace by what; `$1` in the replacement is the first group that took part. -/
structure Rule where
  pattern : Pattern
  replacement : String
  deriving Repr

/-- Singular and plural of words that follow no rule. -/
def irregularPairs : List (String × String) := [
  ("I", "we"), ("me", "us"), ("he", "they"), ("she", "they"), ("them", "them"),
  ("myself", "ourselves"), ("yourself", "yourselves"), ("itself", "themselves"),
  ("herself", "themselves"), ("himself", "themselves"), ("themself", "themselves"),
  ("is", "are"), ("was", "were"), ("has", "have"), ("this", "these"), ("that", "those"),
  ("my", "our"), ("its", "their"), ("his", "their"), ("her", "their"), ("echo", "echoes"),
  ("dingo", "dingoes"), ("volcano", "volcanoes"), ("tornado", "tornadoes"),
  ("torpedo", "torpedoes"), ("genus", "genera"), ("viscus", "viscera"), ("stigma", "stigmata"),
  ("stoma", "stomata"), ("dogma", "dogmata"), ("lemma", "lemmata"), ("schema", "schemata"),
  ("anathema", "anathemata"), ("ox", "oxen"), ("axe", "axes"), ("die", "dice"), ("yes", "yeses"),
  ("foot", "feet"), ("eave", "eaves"), ("goose", "geese"), ("tooth", "teeth"),
  ("quiz", "quizzes"), ("human", "humans"), ("proof", "proofs"), ("carve", "carves"),
  ("valve", "valves"), ("looey", "looies"), ("thief", "thieves"), ("groove", "grooves"),
  ("pickaxe", "pickaxes"), ("passerby", "passersby"), ("canvas", "canvases")]

/-- Words that are their own plural. -/
def uncountables : List String := [
  "adulthood", "advice", "agenda", "aid", "aircraft", "alcohol", "ammo", "analytics", "anime",
  "athletics", "audio", "bison", "blood", "bream", "buffalo", "butter", "carp", "cash", "chassis",
  "chess", "clothing", "cod", "commerce", "cooperation", "corps", "debris", "diabetes",
  "digestion", "elk", "energy", "equipment", "excretion", "expertise", "firmware", "flounder",
  "fun", "gallows", "garbage", "graffiti", "hardware", "headquarters", "health", "herpes",
  "highjinks", "homework", "housework", "information", "jeans", "justice", "kudos", "labour",
  "literature", "machinery", "mackerel", "mail", "media", "mews", "moose", "music", "mud",
  "manga", "news", "only", "personnel", "pike", "plankton", "pliers", "police", "pollution",
  "premises", "rain", "research", "rice", "salmon", "scissors", "series", "sewage", "shambles",
  "shrimp", "software", "staff", "swine", "tennis", "traffic", "transportation", "trout", "tuna",
  "wealth", "welfare", "whiting", "wildebeest", "wildlife", "you"]

open Pattern

/-- Endings of words that are their own plural. -/
def uncountableRules : List Rule := [
  ⟨lit "pok" ++ oneOf ['e', Char.ofNat 0xE9] ++ lit "mon" ++ stop, "$0"⟩,
  ⟨other "aeiou" ++ lit "ese" ++ stop, "$0"⟩,
  ⟨lit "deer" ++ stop, "$0"⟩,
  ⟨lit "fish" ++ stop, "$0"⟩,
  ⟨lit "measles" ++ stop, "$0"⟩,
  ⟨lit "o" ++ any "iu" ++ lit "s" ++ stop, "$0"⟩,
  ⟨lit "pox" ++ stop, "$0"⟩,
  ⟨lit "sheep" ++ stop, "$0"⟩]

/-- Stems that take `-us` in the singular and `-i` in the plural. -/
def stemsInUs : Pattern := stems ["alumn", "syllab", "vir", "radi", "nucle", "fung", "cact",
  "stimul", "termin", "bacill", "foc", "uter", "loc", "strat"]

def pluralRules : List Rule := [
  ⟨optional (lit "s") ++ stop, "s"⟩,
  ⟨nonAscii ++ stop, "$0"⟩,
  ⟨group (other "aeiou" ++ lit "ese") ++ stop, "$1"⟩,
  ⟨stems ["ax", "test"] ++ lit "is" ++ stop, "$1es"⟩,
  ⟨group (either [lit "alias", other "aou" ++ lit "us", lit "t" ++ any "lm" ++ lit "as", lit "gas",
    lit "ris"]) ++ stop, "$1es"⟩,
  ⟨group (lit "e" ++ any "mn" ++ lit "u") ++ optional (lit "s") ++ stop, "$1s"⟩,
  ⟨group (either [other "l" ++ lit "ias", any "aeiou" ++ lit "las", any "ejzr" ++ lit "as",
    any "iu" ++ lit "am"]) ++ stop, "$1"⟩,
  ⟨stemsInUs ++ texts ["us", "i"] ++ stop, "$1i"⟩,
  ⟨stems ["alumn", "alg", "vertebr"] ++ texts ["a", "ae"] ++ stop, "$1ae"⟩,
  ⟨stems ["seraph", "cherub"] ++ optional (lit "im") ++ stop, "$1im"⟩,
  ⟨stems ["her", "at", "gr"] ++ lit "o" ++ stop, "$1oes"⟩,
  ⟨stems ["agend", "addend", "millenni", "dat", "extrem", "bacteri", "desiderat", "strat",
    "candelabr", "errat", "ov", "symposi", "curricul", "automat", "quor"] ++ texts ["a", "um"]
    ++ stop, "$1a"⟩,
  ⟨stems ["apheli", "hyperbat", "periheli", "asyndet", "noumen", "phenomen", "criteri", "organ",
    "prolegomen", "hedr", "automat"] ++ texts ["a", "on"] ++ stop, "$1a"⟩,
  ⟨lit "sis" ++ stop, "ses"⟩,
  ⟨either [stems ["kni", "wi", "li"] ++ lit "fe",
    stems ["ar", "l", "ea", "eo", "oa", "hoo"] ++ lit "f"] ++ stop, "$1$2ves"⟩,
  ⟨group (either [other "aeiouy", lit "qu"]) ++ lit "y" ++ stop, "$1ies"⟩,
  ⟨group (other "ch" ++ any "ieo" ++ any "ln") ++ lit "ey" ++ stop, "$1ies"⟩,
  ⟨stems ["x", "ch", "ss", "sh", "zz"] ++ stop, "$1es"⟩,
  ⟨stems ["matr", "cod", "mur", "sil", "vert", "ind", "append"] ++ texts ["ix", "ex"] ++ stop,
    "$1ices"⟩,
  ⟨boundary ++ group (either [optional (lit "tit") ++ lit "m", lit "l"]) ++ texts ["ice", "ouse"]
    ++ stop, "$1ice"⟩,
  ⟨stems ["pe"] ++ texts ["rson", "ople"] ++ stop, "$1ople"⟩,
  ⟨stems ["child"] ++ optional (lit "ren") ++ stop, "$1ren"⟩,
  ⟨lit "eaux" ++ stop, "$0"⟩,
  ⟨lit "m" ++ any "ae" ++ lit "n" ++ stop, "men"⟩,
  ⟨start ++ lit "thou" ++ stop, "you"⟩]

def singularRules : List Rule := [
  ⟨lit "s" ++ stop, ""⟩,
  ⟨stems ["ss"] ++ stop, "$1"⟩,
  ⟨group (either [lit "wi", lit "kni", either [texts ["after", "half", "high", "low", "mid", "non",
    "night"], nonWord, start] ++ lit "li"]) ++ lit "ves" ++ stop, "$1fe"⟩,
  ⟨group (either [lit "ar", either [lit "wo", any "ae"] ++ lit "l", any "eo" ++ any "ao"])
    ++ lit "ves" ++ stop, "$1f"⟩,
  ⟨lit "ies" ++ stop, "y"⟩,
  ⟨stems ["dg", "ss", "ois", "lk", "ok", "wn", "mb", "th", "ch", "ec", "oal", "is", "ck", "ix",
    "sser", "ts", "wb"] ++ lit "ies" ++ stop, "$1ie"⟩,
  ⟨boundary ++ group (either [lit "l", optional (texts ["neck", "cross", "hog", "aun"]) ++ lit "t",
    texts ["coll", "faer", "food", "gen", "goon", "group", "hipp", "junk", "vegg"],
    optional (lit "pork") ++ lit "p", texts ["charl", "calor", "cut"]]) ++ lit "ies" ++ stop,
    "$1ie"⟩,
  ⟨boundary ++ stems ["mon", "smil"] ++ lit "ies" ++ stop, "$1ey"⟩,
  ⟨boundary ++ group (either [optional (lit "tit") ++ lit "m", lit "l"]) ++ lit "ice" ++ stop,
    "$1ouse"⟩,
  ⟨stems ["seraph", "cherub"] ++ lit "im" ++ stop, "$1"⟩,
  ⟨group (either [texts ["x", "ch", "ss", "sh", "zz", "tto", "go", "cho", "alias"],
    other "aou" ++ lit "us", lit "t" ++ any "lm" ++ lit "as", lit "gas",
    texts ["her", "at", "gr"] ++ lit "o", any "aeiou" ++ lit "ris"]) ++ optional (lit "es") ++ stop,
    "$1"⟩,
  ⟨stems ["analy", "diagno", "parenthe", "progno", "synop", "the", "empha", "cri", "ne"]
    ++ texts ["sis", "ses"] ++ stop, "$1sis"⟩,
  ⟨group (either [texts ["movie", "twelve", "abuse"], lit "e" ++ any "mn" ++ lit "u"]) ++ lit "s"
    ++ stop, "$1"⟩,
  ⟨stems ["test"] ++ texts ["is", "es"] ++ stop, "$1is"⟩,
  ⟨stemsInUs ++ texts ["us", "i"] ++ stop, "$1us"⟩,
  ⟨stems ["agend", "addend", "millenni", "dat", "extrem", "bacteri", "desiderat", "strat",
    "candelabr", "errat", "ov", "symposi", "curricul", "quor"] ++ lit "a" ++ stop, "$1um"⟩,
  ⟨stems ["apheli", "hyperbat", "periheli", "asyndet", "noumen", "phenomen", "criteri", "organ",
    "prolegomen", "hedr", "automat"] ++ lit "a" ++ stop, "$1on"⟩,
  ⟨stems ["alumn", "alg", "vertebr"] ++ lit "ae" ++ stop, "$1a"⟩,
  ⟨stems ["cod", "mur", "sil", "vert", "ind"] ++ lit "ices" ++ stop, "$1ex"⟩,
  ⟨stems ["matr", "append"] ++ lit "ices" ++ stop, "$1ix"⟩,
  ⟨stems ["pe"] ++ stems ["rson", "ople"] ++ stop, "$1rson"⟩,
  ⟨stems ["child"] ++ lit "ren" ++ stop, "$1"⟩,
  ⟨stems ["eau"] ++ optional (lit "x") ++ stop, "$1"⟩,
  ⟨lit "men" ++ stop, "man"⟩]

end ShapeSql.Word
