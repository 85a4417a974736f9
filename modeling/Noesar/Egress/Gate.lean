import Noesar.Lib.Pattern
import Noesar.Updates.Version

namespace Noesar.Egress

open Lib Pattern

abbrev Text := List Char

/-- What the runtime knows of characters: the classes of letters and numbers, the decomposed form, and the two cases. -/
structure Unicode where
  letter : Char → Bool
  number : Char → Bool
  upper : Char → Bool
  lower : Char → Bool
  nfd : Text → Text
  toLowerCase : Text → Text
  toUpperCase : Text → Text

def white (c : Char) : Bool := Capability.isWhiteSpace c

def wordChar (c : Char) : Bool := c.isAlphanum || c = '_'

def lit (s : String) : Pattern Char := cat (s.toList.map fun c ↦ one (· = c))

def litAny (s : String) : Pattern Char := cat (s.toList.map fun c ↦ one (Char.toLower · = c))

/-- `\b` -/
def boundary : Pattern Char := look fun before after ↦ before.head?.any wordChar != after.head?.any wordChar

def stem (s : String) : Pattern Char := cat [litAny s, many wordChar]

section

variable (u : Unicode)

def strip (s : Text) : Text := (u.nfd s).filter fun c ↦ !(0x300 ≤ c.toNat && c.toNat ≤ 0x36F)

def leet : Char → Char
  | '0' => 'o'
  | '1' => 'i'
  | '3' => 'e'
  | '4' => 'a'
  | '5' => 's'
  | '7' => 't'
  | '@' => 'a'
  | '$' => 's'
  | c => c

def wordKey (w : Text) : Text := ((u.toLowerCase (strip u w)).map leet).filter Char.isLower

def digitsOf (s : Text) : Text := s.filter Char.isDigit

def alnumOf (s : Text) : Text := (u.toUpperCase (strip u s)).filter fun c ↦ c.isUpper || c.isDigit

def isYear (digits : Text) : Bool :=
  digits.length = 4 && (digits.take 2 = ['1', '9'] || digits.take 2 = ['2', '0']) && digits.all Char.isDigit

def digitValue (c : Char) : ℕ := c.toNat - '0'.toNat

def ibanValid (raw : Text) : Bool :=
  let s := alnumOf u raw
  let rest := (s.drop 4 ++ s.take 4).foldl (fun rest ch ↦
    (if ch.isDigit then [digitValue ch] else [(ch.toNat - 55) / 10, (ch.toNat - 55) % 10]).foldl
      (fun rest d ↦ (rest * 10 + d) % 97) rest) 0
  15 ≤ s.length && s.length ≤ 34 && (s.take 2).all Char.isUpper && ((s.drop 2).take 2).all Char.isDigit && rest = 1

def cfOdd : List (Char × ℕ) :=
  [('0', 1), ('1', 0), ('2', 5), ('3', 7), ('4', 9), ('5', 13), ('6', 15), ('7', 17), ('8', 19), ('9', 21), ('A', 1),
    ('B', 0), ('C', 5), ('D', 7), ('E', 9), ('F', 13), ('G', 15), ('H', 17), ('I', 19), ('J', 21), ('K', 2), ('L', 4),
    ('M', 18), ('N', 20), ('O', 11), ('P', 3), ('Q', 6), ('R', 8), ('S', 12), ('T', 14), ('U', 16), ('V', 10), ('W', 22),
    ('X', 25), ('Y', 24), ('Z', 23)]

/-- The digits of a tax code, with the letters that stand in for them where two people would have the same code. -/
def cfDigit (c : Char) : Bool := c.isDigit || c ∈ "LMNPQRSTUV".toList

def cfForm : List (Char → Bool) :=
  List.replicate 6 Char.isUpper ++ [cfDigit, cfDigit, Char.isUpper, cfDigit, cfDigit, Char.isUpper] ++
    List.replicate 3 cfDigit ++ [Char.isUpper]

def cfValid (raw : Text) : Bool :=
  let s := alnumOf u raw
  let values := (s.take 15).mapIdx fun i c ↦
    if i % 2 = 0 then ((cfOdd.lookup c).getD 0) else if c.isDigit then digitValue c else c.toNat - 65
  s.length = 16 && (List.zipWith (fun p c ↦ p c) cfForm s).all id && s[15]? = some (Char.ofNat (65 + values.sum % 26))

def doubled (n : ℕ) : ℕ := if n * 2 > 9 then n * 2 - 9 else n * 2

def checkSum (digits : Text) : ℕ :=
  (digits.mapIdx fun i c ↦ if i % 2 = 1 then doubled (digitValue c) else digitValue c).sum

def pivaValid (raw : Text) : Bool :=
  let s := digitsOf raw
  s.length = 11 && checkSum s % 10 = 0

def luhn (raw : Text) : Bool :=
  let s := digitsOf raw
  13 ≤ s.length && s.length ≤ 19 && checkSum s.reverse % 10 = 0

end

def emailShape : Pattern Char :=
  cat [run fun c ↦ wordChar c || c ∈ ['.', '+', '-'], many white,
    anyOf [lit "@", litAny "(at)", litAny "[at]", litAny " at "], many white, run fun c ↦ wordChar c || c = '-', many white,
    anyOf [lit ".", litAny "(dot)", litAny " dot "], greedy 2 none (one Char.isAlpha)]

def ibanShape : Pattern Char :=
  cat [boundary, exactly 2 Char.isAlpha, optional (one white), exactly 2 Char.isDigit,
    greedy 11 (some 30) (cat [optional (one fun c ↦ white c || c = '-'), one Char.isAlphanum]), boundary]

def taxCodeShape : Pattern Char :=
  let digit (c : Char) := cfDigit c.toUpper
  cat [boundary, exactly 6 Char.isAlpha, optional (one white), exactly 2 digit, optional (one white), one Char.isAlpha,
    optional (one white), exactly 2 digit, optional (one white), one Char.isAlpha, optional (one white), exactly 3 digit,
    optional (one white), one Char.isAlpha, boundary]

def cardShape : Pattern Char :=
  cat [boundary, greedy 13 (some 19) (cat [one Char.isDigit, optional (one fun c ↦ c = ' ' || c = '-')]), boundary]

def vatShape : Pattern Char :=
  cat [boundary, optional (litAny "it"), optional (one white), exactly 11 Char.isDigit, boundary]

def phoneShape : Pattern Char :=
  let gap := optional (one fun c ↦ white c || c = '.' || c = '-')
  anyOf [
    cat [anyOf [lit "+", lit "00"], optional (one white), exactly 2 Char.isDigit, gap, between 2 4 Char.isDigit, gap,
      between 3 4 Char.isDigit, gap, between 3 4 Char.isDigit],
    cat [boundary, lit "3", exactly 2 Char.isDigit, gap, exactly 3 Char.isDigit, gap, between 3 4 Char.isDigit, boundary],
    cat [boundary, lit "0", between 1 3 Char.isDigit, gap, between 5 8 Char.isDigit, boundary]]

/-- `[A-ZÀ-Ü]` and `[\wÀ-ü'’]`, whichever the case is. -/
def capital (c : Char) : Bool :=
  c.isAlpha || (0xC0 ≤ c.toNat && c.toNat ≤ 0xDC) || (0xE0 ≤ c.toNat && c.toNat ≤ 0xFC && c.toNat != 0xF7)

def nameChar (c : Char) : Bool := wordChar c || (0xC0 ≤ c.toNat && c.toNat ≤ 0xFE) || c = '\'' || c = '’'

def streetShape : Pattern Char :=
  cat [boundary, anyOf (["via", "viale", "piazza", "piazzale", "corso", "vicolo", "largo", "strada", "contrada"].map litAny),
    run white, greedy 1 (some 4) (cat [one capital, many nameChar, run white]), between 1 4 Char.isDigit,
    optional (one Char.isAlpha), boundary]

def dateShape : Pattern Char :=
  let gap := one fun c ↦ c ∈ ['/', '.', '-']
  cat [boundary, between 1 2 Char.isDigit, gap, between 1 2 Char.isDigit, gap, between 2 4 Char.isDigit, boundary]

structure Shape where
  kind : String
  pattern : Pattern Char
  valid : Text → Bool

def shapes (u : Unicode) : List Shape :=
  [⟨"email", emailShape, fun _ ↦ true⟩, ⟨"iban", ibanShape, ibanValid u⟩, ⟨"tax code", taxCodeShape, cfValid u⟩,
    ⟨"payment card", cardShape, luhn⟩, ⟨"VAT number", vatShape, pivaValid⟩, ⟨"phone", phoneShape, fun _ ↦ true⟩,
    ⟨"street address", streetShape, fun _ ↦ true⟩, ⟨"date", dateShape, fun _ ↦ true⟩]

def blob : Pattern Char := greedy 20 none (one fun c ↦ c.isAlphanum || c ∈ ['+', '/', '=', '_', '-'])

def webAddress : Pattern Char :=
  anyOf [cat [litAny "http", optional (litAny "s"), lit "://"], litAny "www.",
    cat [boundary, run fun c ↦ c.isAlphanum || c = '-', lit ".",
      anyOf (["com", "it", "net", "org", "io", "xyz", "ru", "eu", "info", "biz"].map litAny), boundary, optional (lit "/"),
      many fun c ↦ !white c]]

def placeholder : Pattern Char := cat [lit "[DATO", run Char.isDigit, lit "]"]

def words (s : String) : List Text := s.toList.splitOn ' '

def notNames : List Text := words ("srl spa snc sas srls iva euro via viale piazza corso largo vicolo strada dott dottor " ++
  "dottoressa sig signor signora avv ing geom rag studio comune regione provincia agenzia entrate inps inail asl tribunale " ++
  "corte cassazione italia europa roma milano napoli torino palermo genova bologna firenze bari catania venezia verona " ++
  "messina padova trieste brescia parma taranto prato modena reggio perugia livorno ravenna cagliari foggia rimini salerno " ++
  "ferrara sassari latina monza bergamo pescara trento vicenza terni bolzano novara piacenza ancona andria arezzo udine " ++
  "cesena lecce pesaro barletta alessandria spezia pisa catanzaro pistoia lucca brindisi como treviso varese grosseto " ++
  "caserta asti")

def firstNames : List Text := words ("mario giuseppe giovanni antonio luigi francesco angelo vincenzo pietro salvatore " ++
  "carlo franco domenico bruno paolo michele giorgio aldo sergio luciano marco andrea alessandro luca stefano roberto " ++
  "massimo davide matteo lorenzo simone federico riccardo gabriele leonardo tommaso daniele fabio claudio enrico alberto " ++
  "maria anna giuseppina rosa angela giovanna teresa lucia carmela caterina francesca paola laura elena chiara sara giulia " ++
  "martina alessandra silvia valentina federica elisa barbara monica cristina simona roberta patrizia rita gabriella " ++
  "daniela antonella sofia aurora alice ginevra beatrice")

def sensitive : List (String × Pattern Char) :=
  let topic (parts : List (Pattern Char)) := cat [boundary, anyOf parts, boundary]
  [("health", topic ([stem "diagnos", litAny "ernia", stem "tumor", litAny "cancro", stem "oncolog", stem "diabet",
      stem "depression", litAny "ansia", stem "psichiatr", litAny "hiv", litAny "aids", stem "gravidanz", litAny "aborto",
      stem "fisioterapi", stem "terapi", stem "farmac", stem "sintom", stem "malatti", litAny "referto", stem "invalidit",
      stem "disabilit", litAny "legge 104", stem "ricover", stem "chemio"])),
    ("criminal record", topic [stem "condann", cat [stem "precedent", litAny " penal", many wordChar], litAny "casellario",
      stem "carcer", stem "denunci", litAny "reato", litAny "processo penale", stem "patteggiament"]),
    ("religion", topic [stem "religion", stem "cattolic", stem "musulman", stem "islam", stem "ebrai",
      litAny "testimoni di geova", litAny "ateo", stem "battesim"]),
    ("politics or trade union", topic [litAny "partito", cat [stem "iscritt", litAny " al sindacato"], stem "sindacat",
      litAny "tessera di partito", cat [litAny "voto ", stem "politic"]]),
    ("sex life", topic [litAny "orientamento sessuale", stem "omosessual", litAny "transgender", stem "sieropositiv"]),
    ("ethnic origin", topic [litAny "origine etnica", stem "razz", litAny "etnia"])]

def sensitiveTopic (text : Text) : Option String := (sensitive.find? fun topic ↦ topic.2.test text).map Prod.fst

end Noesar.Egress

namespace Noesar.Egress

open Lib Pattern

local instance lawfulText : LawfulBEq Text := inferInstance

structure PrivateIndex where
  names : List Text
  numbers : List Text
  passages : List Text
  values : List (String × Text)

def PrivateIndex.empty (index : PrivateIndex) : Bool :=
  index.names.isEmpty && index.numbers.isEmpty && index.values.isEmpty

def emptyIndex : PrivateIndex := ⟨[], [], [], []⟩

structure Options where
  userSaid : Text
  history : List Text

inductive Outcome
  | proceed
  | clean
  | ask
  | block
  deriving DecidableEq

def Outcome.rank : Outcome → ℕ
  | proceed => 0
  | clean => 1
  | ask => 2
  | block => 3

structure Removed where
  kind : String
  value : Option Text

structure Verdict where
  outcome : Outcome
  reason : Option String
  removed : List Removed
  sent : Option Text
  topic : Option String

/-- What is left of a text, what was removed from it, and whether the person had written some of that. -/
structure Left where
  out : Text
  removed : List Removed
  userOwn : Bool

def includes (text part : Text) : Bool := decide (part <:+: text)

def Left.cut (left : Left) (pat : Pattern Char) (judge : Text → Option (Removed × Bool)) : Left :=
  let pieces := (pat.findAll left.out).filterMap judge
  ⟨pat.replace (fun m ↦ if (judge m).isSome then [' '] else m) left.out, left.removed ++ pieces.map Prod.fst,
    left.userOwn || pieces.any Prod.snd⟩

section

variable (u : Unicode) (index : PrivateIndex) (options : Options)

def letters3 : Pattern Char := greedy 3 none (one u.letter)

/-- `(?<![…])` and `(?![…])` -/
def notAfter (p : Char → Bool) : Pattern Char := look fun before _ ↦ !before.head?.any p

def notBefore (p : Char → Bool) : Pattern Char := look fun _ after ↦ !after.head?.any p

def userKeys : List Text :=
  ((run fun c ↦ u.letter c || u.number c || c = '\'' || c = '’').findAll options.userSaid).map (wordKey u)

def ownDigits (digits : Text) : Bool := !digits.isEmpty && includes (digitsOf options.userSaid) digits

def cutShapes (left : Left) : Left :=
  (shapes u).foldl (fun left shape ↦ left.cut shape.pattern fun m ↦
    if shape.valid m then some (⟨shape.kind, some (Updates.trim m)⟩, ownDigits options (digitsOf m)) else none) left

def cutPlaceholders (left : Left) : Left := left.cut placeholder fun m ↦ some (⟨"placeholder", some m⟩, false)

def pair : Pattern Char :=
  cat [notAfter u.letter, one u.upper, run u.lower, run white, one u.upper, run u.lower, notBefore u.letter]

/-- The two words of a pair are what is before its white space, and what is after it. -/
def cutPairs (left : Left) : Left :=
  left.cut (pair u) fun m ↦
    let first := wordKey u (m.takeWhile fun c ↦ !white c)
    let last := wordKey u ((m.dropWhile fun c ↦ !white c).dropWhile white)
    if first ∉ firstNames ∨ last ∈ notNames then none
    else some (⟨"person name", some m⟩, first ∈ userKeys u options && last ∈ userKeys u options)

def spelt : Pattern Char :=
  let p (c : Char) := u.letter c || u.number c
  cat [notAfter p, greedy 2 none (cat [one u.letter, one white]), one u.letter, notBefore p]

def collapse (left : Left) : Left :=
  { left with out := (spelt u).replace (fun m ↦ m.filter fun c ↦ !white c) left.out }

def isName (key : Text) : Bool :=
  3 ≤ key.length && (key ∈ index.names ||
    (8 ≤ key.length && index.names.any fun n ↦ 5 ≤ n.length && includes key n))

def isNumber (digits : Text) : Bool :=
  4 ≤ digits.length && !isYear digits &&
    ((index.numbers.any fun n ↦ includes n digits) || index.values.any fun v ↦ includes v.2 digits)

def cutWords (left : Left) : Left :=
  left.cut (run fun c ↦ u.letter c || u.number c || c ∈ ['\'', '’', '@', '$']) fun w ↦
    let key := wordKey u w
    let digits := digitsOf w
    if isName index key || isNumber index digits then
      some (⟨if isName index key then "name from the documents" else "number from the documents", some w⟩,
        key ∈ userKeys u options || ownDigits options digits)
    else none

/-- Five words in a row of the documents, one of which is a name of them or has a digit. -/
def copies (source : Text) : Bool :=
  let words := (run fun c ↦ c.isLower || c.isDigit).findAll (u.toLowerCase (strip u source))
  (List.range (words.length - 4)).any fun i ↦
    let five := (words.drop i).take 5
    [' '].intercalate five ∈ index.passages &&
      five.any fun w ↦ w.any Char.isDigit || wordKey u w ∈ index.names

/-- `(text.match(/\d+/g) ?? []).join('')` -/
def joinedDigits (text : Text) : Text := ((run Char.isDigit).findAll text).flatten

def rebuilds (sentDigits : Text) : Bool :=
  index.values.any fun v ↦ 6 ≤ v.2.length &&
    (List.range (v.2.length - 5)).any fun i ↦ includes sentDigits ((v.2.drop i).take 6)

def tidy (out : Text) : Text := Updates.trim ((run white).replace (fun _ ↦ [' ']) out)

def blocked (reason kind : String) (removed : List Removed) : Verdict :=
  ⟨.block, some reason, removed ++ [⟨kind, none⟩], none, none⟩

def released (source : Text) (left : Left) : Verdict :=
  let sent := tidy left.out
  if left.userOwn && !left.removed.isEmpty then
    ⟨.ask, some "it carries a datum the person wrote: it leaves only if they confirm", left.removed,
      some (Updates.trim source), none⟩
  else if !left.removed.isEmpty && ((letters3 u).findAll sent).length < 2 then
    ⟨.block, some "without the private pieces nothing is left to search", left.removed, none, none⟩
  else match (sensitiveTopic sent).filter fun _ ↦ !index.empty with
    | some topic =>
      ⟨.ask, some s!"sensitive topic ({topic}) in a turn that read documents: it leaves only if the person confirms",
        left.removed, some sent, some topic⟩
    | none => ⟨if left.removed.isEmpty then .proceed else .clean, none, left.removed, some sent, none⟩

def cutRest (left : Left) : Left := cutWords u index options (collapse u (cutPairs u options (cutPlaceholders left)))

def encoded (out : Text) : Bool := (blob.findAll out).any fun b ↦ b.any Char.isDigit && b.any Char.isAlpha

def gate (source : Text) : Verdict :=
  let shaped := cutShapes u options ⟨' ' :: source ++ [' '], [], false⟩
  let rest := cutRest u index options shaped
  if webAddress.test source then
    blocked "a search carries no web address: addresses are only read from the results" "web address" []
  else if encoded shaped.out then blocked "it carries an encoded string" "encoded string" shaped.removed
  else if copies u index source then
    blocked "it copies a passage of the documents" "passage from the documents" rest.removed
  else if rebuilds index ((options.history ++ [rest.out]).map joinedDigits).flatten then
    blocked "the searches of this conversation would rebuild a datum" "pieces of a datum" rest.removed
  else released u index source rest

end

end Noesar.Egress
