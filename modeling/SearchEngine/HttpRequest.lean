import SearchEngine.Run
import Mathlib.Data.List.AList
import Mathlib.Tactic.IntervalCases

namespace SearchEngine

structure HttpRequest where
  uri : Bytes
  headers : AList fun _ : Bytes => Bytes

namespace HttpRequest

def getHeaderValue (req : HttpRequest) (name : Bytes) : Bytes := (req.headers.lookup name).getD []

def addHeader (req : HttpRequest) (name value : Bytes) : HttpRequest :=
  { req with headers := req.headers.insert name value }

end HttpRequest

structure HttpResponse where
  protocol : Bytes
  responseCode : UInt16
  message : Bytes
  contentType : Bytes
  body : Bytes

namespace HttpResponse

def crlf : Bytes := [13, 10]

def decimal (n : Nat) : Bytes := ascii (Nat.toDigits 10 n)

theorem decimal_rec (n : Nat) :
    decimal n = (if n < 10 then [] else decimal (n / 10)) ++ [UInt8.ofNat (48 + n % 10)] := by
  have hdigit (d : Nat) (hd : d < 10) : UInt8.ofNat (Nat.digitChar d).toNat = UInt8.ofNat (48 + d) := by
    interval_cases d <;> rfl
  unfold decimal
  rw [Nat.toDigits_eq_if (by decide)]
  split
  · next h => simp [ascii, hdigit n h, Nat.mod_eq_of_lt h]
  · next h => simp [ascii, hdigit (n % 10) (Nat.mod_lt n (by decide))]

theorem decimal_digits (n : Nat) : ∀ b ∈ decimal n, ∃ d, d < 10 ∧ b = UInt8.ofNat (48 + d) := by
  induction n using Nat.strongRecOn with
  | ind n ih =>
      intro b hb
      rw [decimal_rec, List.mem_append, List.mem_singleton] at hb
      rcases hb with hb | rfl
      · split at hb
        · cases hb
        · exact ih (n / 10) (by omega) b hb
      · exact ⟨n % 10, Nat.mod_lt n (by decide), rfl⟩

def generateResponseString (res : HttpResponse) : Bytes :=
  res.protocol ++ ascii [' '] ++ decimal res.responseCode.toNat ++ ascii [' '] ++ res.message ++ crlf ++
  (if res.contentType.isEmpty then []
    else ascii ['C', 'o', 'n', 't', 'e', 'n', 't', '-', 't', 'y', 'p', 'e', ':', ' '] ++ res.contentType ++
      crlf) ++
  ascii ['C', 'o', 'n', 't', 'e', 'n', 't', '-', 'l', 'e', 'n', 'g', 't', 'h', ':', ' '] ++
  decimal res.body.length ++ crlf ++ crlf ++ res.body

end HttpResponse

end SearchEngine
