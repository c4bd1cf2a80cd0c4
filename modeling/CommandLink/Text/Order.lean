namespace CommandLink.Text

/-- The order of a dictionary, by code points. The octets of the texts in
UTF-8 stand in the same order. -/
def le : List Char → List Char → Bool
  | [], _ => true
  | _ :: _, [] => false
  | a :: as, b :: bs => a.toNat < b.toNat || (a == b && le as bs)

end CommandLink.Text
