/-! Numbers of traces, and the bits that they are worth.

An observer who tells `n` equally likely traces apart learns `log₂ n` bits. The logarithm is computed in
binary fixed point by repeated squaring: the square of a number in `[1, 2)` is at least `2` exactly if
the next binary digit of its logarithm is one. -/

namespace CacheTiming

/-- A number of traces. -/
abbrev Count := Int

namespace Count

/-- The number of traces of the root. -/
def one : Count := 1

/-- The number of traces of two disjoint sets. -/
def sum (a b : Count) : Count := a + b

/-- The number of traces after an access that may hit or miss. -/
def double (a : Count) : Count := a * 2

end Count

namespace Bits

/-- The number of binary digits that are computed of a logarithm. -/
def digits : Nat := 64

/-- The number of binary digits behind the point of an intermediate result. -/
def precision : Nat := 160

/-- The next `n` digits of the logarithm of `m / 2 ^ precision`, behind those in `log`. -/
def fraction : (n : Nat) → (m log : Nat) → Nat
  | 0, _, log => log
  | n + 1, m, log =>
    let square := (m * m) >>> precision
    if square < 2 <<< precision then fraction n square (2 * log)
    else fraction n (square / 2) (2 * log + 1)

/-- The binary logarithm of a positive number in units of `2 ^ -digits`, rounded down. -/
def log2 (n : Nat) : Nat :=
  let whole := n.log2
  whole <<< digits + fraction digits (n <<< precision >>> whole) 0

/-- The bits that `n` traces are worth, as a decimal with the given number of places, of which there is
    at least one; up to one trace is worth nothing. -/
def text (places : Nat) (n : Count) : String :=
  let unit := Nat.pow 10 places
  let scaled := if n ≤ 1 then 0 else (log2 n.toNat * unit + 1 <<< (digits - 1)) >>> digits
  let fraction := (scaled % unit).repr
  (scaled / unit).repr ++ "." ++ String.ofList (List.replicate (places - fraction.length) '0') ++ fraction

end Bits

end CacheTiming
