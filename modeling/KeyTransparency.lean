import KeyTransparency.Proto
import KeyTransparency.Apply
import KeyTransparency.Trillian
import KeyTransparency.Epoch
import KeyTransparency.Anchor
import KeyTransparency.History
import KeyTransparency.Binding
import KeyTransparency.Contents
import KeyTransparency.Watermark
import KeyTransparency.Ticks
import KeyTransparency.Dispatch
import KeyTransparency.Signing
