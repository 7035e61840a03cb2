import CryptoScan.Python.Regex

/-!
# The vocabularies: `Category`, `POSSIBLE_CATEGORIES` and the names in the prompt

Three lists of names live in the program and are maintained by hand: the values of the `Category`
enum (`vecstore.py`), the names the answer parser looks for (`POSSIBLE_CATEGORIES`, `run.py`: the
enum's values and `bcrypt`), and the names the prompt tells the model to output.

What later proofs use of the names is collected here, once, as decidable facts over the spelled-out
lists: the parser's names are prefix-free, blank-free and free of regex punctuation, and which of
them occur inside which prompt name.
-/

namespace CryptoScan

open Python

/-- `vecstore.Category`. -/
inductive Category where
  | hashing | rsa | diffieHellman | dsa | elipticCurve | ed448 | ed25519 | aes | camellia
  | chacha20 | des | hmac | md5 | sha | nocrypto | usesAes | passwordPbkdf2Sha256 | passwordBcrypt
  deriving DecidableEq, Repr

namespace Category

/-- `cat.value`. -/
def value : Category → Text
  | hashing => txt "hashing"
  | rsa => txt "RSA"
  | diffieHellman => txt "DiffieHellman"
  | dsa => txt "DSA"
  | elipticCurve => txt "ElipticCurves"
  | ed448 => txt "ED448"
  | ed25519 => txt "ED25519"
  | aes => txt "AES"
  | camellia => txt "Camellia"
  | chacha20 => txt "ChaCha"
  | des => txt "DES"
  | hmac => txt "HMAC"
  | md5 => txt "MD5"
  | sha => txt "SHA"
  | nocrypto => txt "NOCRYPTO"
  | usesAes => txt "USES_AES"
  | passwordPbkdf2Sha256 => txt "PASSWORD_PBKDF2_SHA256"
  | passwordBcrypt => txt "PASSWORD_BCRYPT"

/-- The enum in declaration order, as `for cat in Category` runs through it. -/
def all : List Category :=
  [hashing, rsa, diffieHellman, dsa, elipticCurve, ed448, ed25519, aes, camellia, chacha20, des,
    hmac, md5, sha, nocrypto, usesAes, passwordPbkdf2Sha256, passwordBcrypt]

theorem mem_all (c : Category) : c ∈ all := by
  cases c <;> decide

end Category

/-- `POSSIBLE_CATEGORIES = [cat.value for cat in Category] + ["bcrypt"]`. -/
def possibleCategories : List Text := Category.all.map Category.value ++ [txt "bcrypt"]

theorem Category.value_mem (c : Category) : c.value ∈ possibleCategories :=
  List.mem_append_left _ (List.mem_map_of_mem (Category.mem_all c))

/-! ## The names of the prompt -/

/-- The usage categories of the prompt, each with its explanation. -/
def usageNames : List (Text × Text) :=
  [(txt "USES_AES", txt "in case the algorithm is using the AES algorithm."),
    (txt "PASSWORD_PBKDF2_SHA256", txt "in case it is using a key derivation algorithm."),
    (txt "PASSWORD_BCRYPT", txt "in case it is using the bcrypt algorithm.")]

/-- The implementation categories of the prompt. -/
def implementationNames : List Text :=
  [txt "RSA", txt "DiffieHellman", txt "DSA", txt "ElipticCurves", txt "ED448", txt "ED25519",
    txt "AES", txt "CAMELLIA", txt "CHACHA20", txt "DES", txt "HMAC", txt "MD5", txt "SHA"]

/-- What the prompt wants for code without cryptography. -/
def noCryptoName : Text := txt "NO_CRYPTO"

/-- Every category name the prompt tells the model to output. -/
def promptNames : List Text :=
  usageNames.map Prod.fst ++ implementationNames ++ [noCryptoName]

/-- The part both prompts share: the vocabulary, and the code in question. -/
def promptBody (question : Text) : Text :=
  txt "
    You are a machine capable of recognizing algorithms or fragments of use of algorithms.
    Given the following code, identify if it is an implementation of a cryptographic
    algorithm,  the use of a cryptographic algorithm, or it is just a general
    code. Take into account that a use of cryptographic code can be considered
    anything that tries to hash a password, digest a message, sign a token, or
    pretty much anything that would be considered the use of a cryptographic primitive.

    If the algorithm is an example of use of any cryptographic primitive, the possible
    categories are:
" ++ usageNames.flatMap (fun (n, why) => txt "    - " ++ n ++ txt ": " ++ why ++ txt "\n") ++
  txt "
    If the algorithm is an implementation, then the possible categories are:
" ++ implementationNames.flatMap (fun n => txt "    - " ++ n ++ txt "\n") ++
  txt "
    If the code is not implementing nor using any cryptographic primitive, then the
    output should be " ++ noCryptoName ++ txt ".

    The code is as follow:
    " ++ question ++ txt "
"

/-- The prompt of `get_true_category`. -/
def prompt (question : Text) : Text := promptBody question ++ txt "    "

/-- The prompt of `get_true_category_v2_codellama`, with the categories retrieved before. -/
def promptV2 (question : Text) (categories : List Text) : Text :=
  promptBody question ++ txt "
    If usefull, a previous model has classified this code as one of these categories:
    " ++ (txt ", ").intercalate categories ++ txt "

    OUTPUT ONLY THE CATEGORY OF THE ALGORITHM AND NOTHING ELSE.
    "

/-! ## The names spelled out -/

/-- `possibleCategories`, letter by letter: the form `decide` works on. -/
theorem possibleCategories_eq : possibleCategories =
    [['h', 'a', 's', 'h', 'i', 'n', 'g'], ['R', 'S', 'A'],
      ['D', 'i', 'f', 'f', 'i', 'e', 'H', 'e', 'l', 'l', 'm', 'a', 'n'], ['D', 'S', 'A'],
      ['E', 'l', 'i', 'p', 't', 'i', 'c', 'C', 'u', 'r', 'v', 'e', 's'], ['E', 'D', '4', '4', '8'],
      ['E', 'D', '2', '5', '5', '1', '9'], ['A', 'E', 'S'],
      ['C', 'a', 'm', 'e', 'l', 'l', 'i', 'a'], ['C', 'h', 'a', 'C', 'h', 'a'], ['D', 'E', 'S'],
      ['H', 'M', 'A', 'C'], ['M', 'D', '5'], ['S', 'H', 'A'],
      ['N', 'O', 'C', 'R', 'Y', 'P', 'T', 'O'], ['U', 'S', 'E', 'S', '_', 'A', 'E', 'S'],
      ['P', 'A', 'S', 'S', 'W', 'O', 'R', 'D', '_', 'P', 'B', 'K', 'D', 'F', '2', '_', 'S', 'H',
        'A', '2', '5', '6'],
      ['P', 'A', 'S', 'S', 'W', 'O', 'R', 'D', '_', 'B', 'C', 'R', 'Y', 'P', 'T'],
      ['b', 'c', 'r', 'y', 'p', 't']] := by
  rfl

/-- `promptNames`, letter by letter. -/
theorem promptNames_eq : promptNames =
    [['U', 'S', 'E', 'S', '_', 'A', 'E', 'S'],
      ['P', 'A', 'S', 'S', 'W', 'O', 'R', 'D', '_', 'P', 'B', 'K', 'D', 'F', '2', '_', 'S', 'H',
        'A', '2', '5', '6'],
      ['P', 'A', 'S', 'S', 'W', 'O', 'R', 'D', '_', 'B', 'C', 'R', 'Y', 'P', 'T'],
      ['R', 'S', 'A'], ['D', 'i', 'f', 'f', 'i', 'e', 'H', 'e', 'l', 'l', 'm', 'a', 'n'],
      ['D', 'S', 'A'], ['E', 'l', 'i', 'p', 't', 'i', 'c', 'C', 'u', 'r', 'v', 'e', 's'],
      ['E', 'D', '4', '4', '8'], ['E', 'D', '2', '5', '5', '1', '9'], ['A', 'E', 'S'],
      ['C', 'A', 'M', 'E', 'L', 'L', 'I', 'A'], ['C', 'H', 'A', 'C', 'H', 'A', '2', '0'],
      ['D', 'E', 'S'], ['H', 'M', 'A', 'C'], ['M', 'D', '5'], ['S', 'H', 'A'],
      ['N', 'O', '_', 'C', 'R', 'Y', 'P', 'T', 'O']] := by
  rfl

theorem possibleCategories_prefixFree : PrefixFree possibleCategories := by
  rw [possibleCategories_eq]
  decide

theorem possibleCategories_solid : ∀ c ∈ possibleCategories, Solid isSpace c := by
  rw [possibleCategories_eq]
  decide

theorem possibleCategories_plain : ∀ c ∈ possibleCategories, Plain c := by
  rw [possibleCategories_eq]
  decide

end CryptoScan
